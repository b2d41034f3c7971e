import Gpuforge.FusedAttentionCells
import Gpuforge.TiledGemmCells

/-!
# Indexes in `int` on the device

The host converts the dimensions to `int`, and the kernels compute their indexes in it.
The guards in a kernel bound rows and columns, not their products.  A kernel whose
arguments hold matrices can fail in no other way than by an overflow, and only without
room for the largest index of each matrix (`gemmTiled_endsIn`, `qkvAttention_endsIn`).
A kernel that does not fail has computed the index of the last entry of each matrix, so
that much room is needed (`launch_indexes_fit_iff`).
-/

namespace Gpuforge

open ForLoop GridLaunch

/-- A matrix whose last entry has an index below a bound is not larger than the bound. -/
theorem area_le_of_last {rows columns bound : Nat} (hrows : 1 ≤ rows) (hcolumns : 1 ≤ columns)
    (h : (rows - 1) * columns + (columns - 1) < bound) : rows * columns ≤ bound := by
  obtain ⟨r, rfl⟩ := Nat.exists_eq_add_of_le' hrows
  rw [Nat.add_sub_cancel] at h
  rw [Nat.succ_mul]
  omega

/-! ## The tiled product -/

/-- **Room for the indexes of the tiled product.**  The dimensions are `int`s, the counter
of the loop over tiles has room for its last value, and the last index of each matrix is an
`int`. -/
structure GemmRoom (rows inner columns : Nat) : Prop where
  rowsInt : rows < 2 ^ 31
  columnsInt : columns < 2 ^ 31
  counter : inner + kGemmTile ≤ 2 ^ 31
  lhs : rows * inner ≤ 2 ^ 31
  rhs : inner * columns ≤ 2 ^ 31
  output : rows * columns ≤ 2 ^ 31

section gemm

variable {α : Type} {args : GemmArgs α} {rows inner columns block : Nat} {a b : Nat → Nat → α}
  {blockIdx threadIdx : Idx}

/-- The row or column of a thread of a block that starts inside. -/
theorem tile_castInt {n tile t : Nat} (hn : n < 2 ^ 31) (htile : tile * kGemmTile < n)
    (ht : t < kGemmTile) :
    castInt (tile * kGemmTile + t) = ((tile * kGemmTile + t : Nat) : Int) := by
  apply castInt_of_lt
  unfold kGemmTile at *
  omega

variable [Zero α]

/-- Loading an element of the left operand can only overflow. -/
theorem lhsElement_endsIn (h : args.Holds rows inner columns a b) (hrows : rows < 2 ^ 31)
    (hstart : blockIdx.y * kGemmTile < rows) (ht : InTile threadIdx) (hblock : block < inner) :
    EndsIn (OverflowUnless (GemmRoom rows inner columns))
      (lhsElement args blockIdx block threadIdx) := by
  have hrow : gemmRow blockIdx threadIdx = (tileRow blockIdx threadIdx : Nat) :=
    tile_castInt hrows hstart ht.2
  simp only [lhsElement, hrow, h.rows, h.inner]
  generalize tileRow blockIdx threadIdx = i
  split
  · rename_i hin
    refine endsIn_checkedInt_bind (n := block + threadIdx.x) (by omega) (fun hroom => ?_) ?_
    · have hcounter := hroom.counter
      have hx := ht.1
      omega
    · split
      · rename_i hkin
        have hk : block + threadIdx.x < inner := by omega
        have hcell := RowMajor.cell_lt (show i < rows by omega) hk
        have hfits : GemmRoom rows inner columns →
            i * inner + (block + threadIdx.x) < 2 ^ 31 :=
          fun hroom => Nat.lt_of_lt_of_le hcell hroom.lhs
        -- the partial sums are not above the index
        refine endsIn_checkedInt_bind (n := i * inner) (by push_cast; rfl) (fun hroom => ?_) ?_
        · have hlt := hfits hroom
          omega
        · refine endsIn_checkedInt_bind (n := i * inner + block) (by push_cast; rfl)
            (fun hroom => ?_) ?_
          · have hlt := hfits hroom
            omega
          · apply endsIn_checkedInt_bind (n := i * inner + (block + threadIdx.x)) (by omega) hfits
            rw [readAt_natCast (h.lhs i (by omega) _ hk)]
            exact endsIn_ok _
      · exact endsIn_ok _
  · exact endsIn_ok _

/-- Loading an element of the right operand can only overflow. -/
theorem rhsElement_endsIn (h : args.Holds rows inner columns a b) (hcolumns : columns < 2 ^ 31)
    (hstart : blockIdx.x * kGemmTile < columns) (ht : InTile threadIdx) (hblock : block < inner) :
    EndsIn (OverflowUnless (GemmRoom rows inner columns))
      (rhsElement args blockIdx block threadIdx) := by
  have hcolumn : gemmColumn blockIdx threadIdx = (tileColumn blockIdx threadIdx : Nat) :=
    tile_castInt hcolumns hstart ht.1
  simp only [rhsElement, hcolumn, h.columns, h.inner]
  generalize tileColumn blockIdx threadIdx = j
  refine endsIn_checkedInt_bind (n := block + threadIdx.y) (by omega) (fun hroom => ?_) ?_
  · have hcounter := hroom.counter
    have hy := ht.2
    omega
  · split
    · rename_i hin
      exact h.rhs.endsIn_cellAt (fun hroom => hroom.rhs) (i := block + threadIdx.y) (j := j)
        (by omega) rfl rfl (by omega) (by omega)
    · exact endsIn_ok _

omit [Zero α] in
/-- A thread writes its own entry of a tile. -/
theorem endsIn_setTile {errors : Fault → Prop} (tile : Nat → Nat → α) (ht : InTile threadIdx)
    (value : α) : EndsIn errors (setTile tile threadIdx.y threadIdx.x value) := by
  rw [setTile, if_pos ⟨ht.2, ht.1⟩]
  exact endsIn_ok _

variable [Add α] [Mul α]

omit [Zero α] in
/-- A thread multiplies inside of the tiles. -/
theorem multiply_endsIn {errors : Fault → Prop} {k : Nat} (hk : k < kGemmTile)
    (ht : InTile threadIdx) (s : GemmBlock α) : EndsIn errors (multiply k threadIdx s) := by
  rw [multiply, tileAt, if_pos ⟨ht.2, hk⟩, ok_bind, tileAt, if_pos ⟨hk, ht.1⟩, ok_bind]
  exact endsIn_ok _

/-- **A turn of the loop over tiles** can only overflow. -/
theorem tileTurn_endsIn (threads : TurnOrder) (h : args.Holds rows inner columns a b)
    (hrows : rows < 2 ^ 31) (hcolumns : columns < 2 ^ 31)
    (hstartY : blockIdx.y * kGemmTile < rows) (hstartX : blockIdx.x * kGemmTile < columns)
    (hblock : block < inner) (s : GemmBlock α) :
    EndsIn (OverflowUnless (GemmRoom rows inner columns))
      (tileTurn threads args blockIdx block s) := by
  have hthread : ∀ t ∈ threads.turns kGemmTile kGemmTile, InTile t :=
    fun t ht => (threads.mem_iff _ _ _).mp ht
  apply EndsIn.bind
  · apply endsIn_loop
    intro t ht s
    apply EndsIn.bind (lhsElement_endsIn h hrows hstartY (hthread t ht) hblock)
    intro value _
    exact (endsIn_setTile s.lhsTile (hthread t ht) value).bind fun tile _ => endsIn_ok _
  · intro s₁ _
    apply EndsIn.bind
    · apply endsIn_loop
      intro t ht s
      apply EndsIn.bind (rhsElement_endsIn h hcolumns hstartX (hthread t ht) hblock)
      intro value _
      exact (endsIn_setTile s.rhsTile (hthread t ht) value).bind fun tile _ => endsIn_ok _
    · intro s₂ _
      apply endsIn_loop
      intro k hk s
      apply endsIn_loop
      intro t ht s
      exact multiply_endsIn (mem_upTo.mp hk).2 (hthread t ht) s

omit [Zero α] [Add α] [Mul α] in
/-- The store of a thread can only overflow. -/
theorem storeCell_endsIn (h : args.Holds rows inner columns a b) (hrows : rows < 2 ^ 31)
    (hcolumns : columns < 2 ^ 31) (hstartY : blockIdx.y * kGemmTile < rows)
    (hstartX : blockIdx.x * kGemmTile < columns) (ht : InTile threadIdx) (s : GemmBlock α) :
    EndsIn (OverflowUnless (GemmRoom rows inner columns)) (storeCell args blockIdx s threadIdx)
    := by
  have hrow : gemmRow blockIdx threadIdx = (tileRow blockIdx threadIdx : Nat) :=
    tile_castInt hrows hstartY ht.2
  have hcolumn : gemmColumn blockIdx threadIdx = (tileColumn blockIdx threadIdx : Nat) :=
    tile_castInt hcolumns hstartX ht.1
  simp only [storeCell, hrow, hcolumn, h.rows, h.columns, h.outputSize]
  generalize tileRow blockIdx threadIdx = i
  generalize tileColumn blockIdx threadIdx = j
  split
  · rename_i hin
    have hi : i < rows := by omega
    have hj : j < columns := by omega
    have hcell := RowMajor.cell_lt hi hj
    apply endsIn_cellIndex_bind rfl rfl rfl
    · intro hroom
      exact Nat.lt_of_lt_of_le hcell hroom.output
    · exact endsIn_writeAt hi hj blockIdx threadIdx _
  · exact endsIn_ok _

/-- **The tiled kernel can only overflow**, and that only without room for the indexes. -/
theorem gemmTiled_endsIn (threads : TurnOrder) (fresh : Uninitialized α)
    (h : args.Holds rows inner columns a b) (hrows : rows < 2 ^ 31) (hcolumns : columns < 2 ^ 31)
    (hstartY : blockIdx.y * kGemmTile < rows) (hstartX : blockIdx.x * kGemmTile < columns) :
    EndsIn (OverflowUnless (GemmRoom rows inner columns)) (gemmTiled threads fresh args blockIdx)
    := by
  apply EndsIn.bind
  · refine endsIn_counted kGemmTile_pos ?_ ?_ _
    · intro hwraps
      refine ⟨rfl, ?_⟩
      intro hroom
      have hcounter := hroom.counter
      rw [h.inner, Int.toNat_natCast] at hwraps
      omega
    · intro block hblock s
      rw [h.inner, Int.toNat_natCast] at hblock
      exact tileTurn_endsIn threads h hrows hcolumns hstartY hstartX hblock s
  · intro s _
    apply endsIn_gather
    intro t ht
    exact storeCell_endsIn h hrows hcolumns hstartY hstartX ((threads.mem_iff _ _ _).mp ht) s

/-! ## What a block that ends has computed -/

omit [Add α] [Mul α] in
/-- A loaded element of the left operand has an index. -/
theorem lhsElement_ok (h : args.Holds rows inner columns a b) {i k : Nat} {value : α}
    (hrow : gemmRow blockIdx threadIdx = (i : Nat)) (hi : i < rows)
    (hposition : block + threadIdx.x = k) (hk : k < inner)
    (hload : lhsElement args blockIdx block threadIdx = .ok value) : i * inner + k < 2 ^ 31 := by
  simp only [lhsElement, hrow, h.rows, h.inner] at hload
  rw [if_pos (by omega)] at hload
  obtain ⟨position, hchecked, hload⟩ := bind_ok hload
  obtain ⟨rfl, _⟩ := checkedInt_ok hchecked
  rw [if_pos (by omega)] at hload
  obtain ⟨product, hproduct, hload⟩ := bind_ok hload
  obtain ⟨rfl, _⟩ := checkedInt_ok hproduct
  obtain ⟨sum, hsum, hload⟩ := bind_ok hload
  obtain ⟨rfl, _⟩ := checkedInt_ok hsum
  obtain ⟨index, hindex, _⟩ := bind_ok hload
  obtain ⟨_, hfits⟩ := checkedInt_ok hindex
  rw [← Int.natCast_mul] at hfits
  omega

omit [Add α] [Mul α] in
/-- A loaded element of the right operand has an index. -/
theorem rhsElement_ok (h : args.Holds rows inner columns a b) {k j : Nat} {value : α}
    (hcolumn : gemmColumn blockIdx threadIdx = (j : Nat)) (hj : j < columns)
    (hposition : block + threadIdx.y = k) (hk : k < inner)
    (hload : rhsElement args blockIdx block threadIdx = .ok value) :
    k * columns + j < 2 ^ 31 := by
  simp only [rhsElement, hcolumn, h.columns, h.inner] at hload
  obtain ⟨position, hchecked, hload⟩ := bind_ok hload
  obtain ⟨rfl, _⟩ := checkedInt_ok hchecked
  rw [if_pos (by omega)] at hload
  have hfits := cellAt_ok hload
  rw [← Int.natCast_add, hposition, ← Int.natCast_mul] at hfits
  omega

/-- A turn that ends has loaded an element for every thread. -/
theorem tileTurn_ok {threads : TurnOrder} {s s' : GemmBlock α}
    (hturn : tileTurn threads args blockIdx block s = .ok s') (ht : InTile threadIdx) :
    (∃ value, lhsElement args blockIdx block threadIdx = .ok value) ∧
      ∃ value, rhsElement args blockIdx block threadIdx = .ok value := by
  have hmem : threadIdx ∈ threads.turns kGemmTile kGemmTile := (threads.mem_iff _ _ _).mpr ht
  obtain ⟨s₁, hlhs, hturn⟩ := bind_ok hturn
  obtain ⟨s₂, hrhs, _⟩ := bind_ok hturn
  obtain ⟨_, _, hlhs⟩ := loop_ran hlhs hmem
  obtain ⟨_, _, hrhs⟩ := loop_ran hrhs hmem
  obtain ⟨x, hx, _⟩ := bind_ok hlhs
  obtain ⟨y, hy, _⟩ := bind_ok hrhs
  exact ⟨⟨x, hx⟩, ⟨y, hy⟩⟩

omit [Zero α] [Add α] [Mul α] in
/-- A stored cell has an index. -/
theorem storeCell_ok (h : args.Holds rows inner columns a b) {i j : Nat} {s : GemmBlock α}
    {stores : List (Store α)} (hrow : gemmRow blockIdx threadIdx = (i : Nat)) (hi : i < rows)
    (hcolumn : gemmColumn blockIdx threadIdx = (j : Nat)) (hj : j < columns)
    (hstore : storeCell args blockIdx s threadIdx = .ok stores) : i * columns + j < 2 ^ 31 := by
  simp only [storeCell, hrow, hcolumn, h.rows, h.columns] at hstore
  rw [if_pos (by omega)] at hstore
  obtain ⟨index, hindex, _⟩ := bind_ok hstore
  obtain ⟨_, hfits⟩ := cellIndex_ok hindex
  rw [← Int.natCast_mul] at hfits
  omega

/-- A block that ends has taken every turn, and a store of every thread. -/
theorem gemmTiled_ok {threads : TurnOrder} {fresh : Uninitialized α} {stores : List (Store α)}
    (h : args.Holds rows inner columns a b)
    (hrun : gemmTiled threads fresh args blockIdx = .ok stores) :
    inner + kGemmTile ≤ 2 ^ 31 ∧
      (∀ k < inner, ∃ s s', tileTurn threads args blockIdx (k / kGemmTile * kGemmTile) s
        = .ok s') ∧
      ∀ t, InTile t → ∃ s new, storeCell args blockIdx s t = .ok new := by
  obtain ⟨s, hturns, hstores⟩ := bind_ok hrun
  obtain ⟨hloop, hcounter⟩ := counted_ran hturns
  rw [h.inner, Int.toNat_natCast] at hloop hcounter
  refine ⟨room_of_turns kGemmTile_pos (by decide) hcounter, ?_, ?_⟩
  · intro k hk
    have hle : k / kGemmTile * kGemmTile ≤ k := Nat.div_mul_le_self k kGemmTile
    exact loop_ran hloop (mem_strides kGemmTile_pos (by omega))
  · intro t ht
    obtain ⟨new, hnew⟩ := gather_ran hstores ((threads.mem_iff _ _ _).mpr ht)
    exact ⟨s, new, hnew⟩

/-- **A block that ends needs room.**  The last block, for the output; the last blocks of
the first column and of the first row, for the operands. -/
theorem gemmRoom_of_runs (threads : TurnOrder) (fresh : Uninitialized α)
    (h : args.Holds rows inner columns a b) (hrowsInt : rows < 2 ^ 31)
    (hcolumnsInt : columns < 2 ^ 31) (hrows : 1 ≤ rows) (hinner : 1 ≤ inner)
    (hcolumns : 1 ≤ columns)
    (hruns : ∀ blockIdx : Idx, blockIdx.y * kGemmTile < rows → blockIdx.x * kGemmTile < columns →
      ∃ stores, gemmTiled threads fresh args blockIdx = .ok stores) :
    GemmRoom rows inner columns := by
  have hsplit : ∀ n, n / kGemmTile * kGemmTile + n % kGemmTile = n :=
    fun n => Nat.div_add_mod' n kGemmTile
  have hmod : ∀ n, n % kGemmTile < kGemmTile := fun n => Nat.mod_lt n kGemmTile_pos
  have hfirst : ∀ {n}, 1 ≤ n → 0 * kGemmTile < n := fun hn => by
    rw [Nat.zero_mul]
    exact hn
  have hlast : ∀ {n}, 1 ≤ n → (n - 1) / kGemmTile * kGemmTile < n := fun {n} hn =>
    Nat.lt_of_le_of_lt (Nat.div_mul_le_self (n - 1) kGemmTile) (by omega)
  have hlastRow : ∀ x t, gemmRow ⟨x, (rows - 1) / kGemmTile⟩ ⟨t, (rows - 1) % kGemmTile⟩ =
      ((rows - 1 : Nat) : Int) := by
    intro x t
    rw [gemmRow, tile_castInt hrowsInt (hlast hrows) (hmod _), hsplit]
  have hlastColumn : ∀ y t,
      gemmColumn ⟨(columns - 1) / kGemmTile, y⟩ ⟨(columns - 1) % kGemmTile, t⟩ =
        ((columns - 1 : Nat) : Int) := by
    intro y t
    rw [gemmColumn, tile_castInt hcolumnsInt (hlast hcolumns) (hmod _), hsplit]
  obtain ⟨stores, hrun⟩ := hruns ⟨0, (rows - 1) / kGemmTile⟩ (hlast hrows) (hfirst hcolumns)
  obtain ⟨hcounter, hturns, _⟩ := gemmTiled_ok h hrun
  refine ⟨hrowsInt, hcolumnsInt, hcounter, ?_, ?_, ?_⟩
  · obtain ⟨s, s', hturn⟩ := hturns (inner - 1) (by omega)
    obtain ⟨⟨value, hload⟩, _⟩ := tileTurn_ok hturn
      (show InTile ⟨(inner - 1) % kGemmTile, (rows - 1) % kGemmTile⟩ from ⟨hmod _, hmod _⟩)
    exact area_le_of_last hrows hinner (lhsElement_ok h (hlastRow _ _) (by omega)
      (hsplit (inner - 1)) (by omega) hload)
  · obtain ⟨stores, hrun⟩ := hruns ⟨(columns - 1) / kGemmTile, 0⟩ (hfirst hrows)
      (hlast hcolumns)
    obtain ⟨_, hturns, _⟩ := gemmTiled_ok h hrun
    obtain ⟨s, s', hturn⟩ := hturns (inner - 1) (by omega)
    obtain ⟨_, value, hload⟩ := tileTurn_ok hturn
      (show InTile ⟨(columns - 1) % kGemmTile, (inner - 1) % kGemmTile⟩ from ⟨hmod _, hmod _⟩)
    exact area_le_of_last hinner hcolumns (rhsElement_ok h (hlastColumn _ _) (by omega)
      (hsplit (inner - 1)) (by omega) hload)
  · obtain ⟨stores, hrun⟩ := hruns ⟨(columns - 1) / kGemmTile, (rows - 1) / kGemmTile⟩
      (hlast hrows) (hlast hcolumns)
    obtain ⟨_, _, hstores⟩ := gemmTiled_ok h hrun
    obtain ⟨s, new, hstore⟩ := hstores ⟨(columns - 1) % kGemmTile, (rows - 1) % kGemmTile⟩
      ⟨hmod _, hmod _⟩
    exact area_le_of_last hrows hcolumns (storeCell_ok h (hlastRow _ _) (by omega)
      (hlastColumn _ _) (by omega) hstore)

/-- **The indexes of a product fit in `int`.**  The conversions keep the dimensions, and no
block with a thread in range overflows; `gemm_cuda` launches the kernel with these
arguments. -/
structure GemmIndexesFit (threads : TurnOrder) (fresh : Uninitialized α) (lhs rhs : Tensor α)
    (rows inner columns : Nat) : Prop where
  rowsKept : castInt rows = rows
  innerKept : castInt inner = inner
  columnsKept : castInt columns = columns
  kernel : ∀ blockIdx threadIdx, InTile threadIdx → tileRow blockIdx threadIdx < rows →
    tileColumn blockIdx threadIdx < columns →
    gemmTiled threads fresh ⟨lhs.storage, rhs.storage, rows * columns, castInt rows,
      castInt columns, castInt inner⟩ blockIdx ≠ .error .overflow

/-- **When the indexes of a product fit.** -/
theorem gemmIndexesFit_iff (threads : TurnOrder) (fresh : Uninitialized α) {lhs rhs : Tensor α}
    (hlhs : lhs.shape = [rows, inner]) (hrhs : rhs.shape = [inner, columns]) (hrows : 1 ≤ rows)
    (hinner : 1 ≤ inner) (hcolumns : 1 ≤ columns) :
    GemmIndexesFit threads fresh lhs rhs rows inner columns ↔ GemmRoom rows inner columns := by
  have hargs : ∀ {r c i : Int}, r = rows → c = columns → i = inner →
      GemmArgs.Holds ⟨lhs.storage, rhs.storage, rows * columns, r, c, i⟩ rows inner columns
        (lhs.entry inner) (rhs.entry columns) :=
    fun hr hc hi => ⟨(Tensor.cells_entry hlhs).cells, (Tensor.cells_entry hrhs).cells, rfl,
      hr, hc, hi⟩
  constructor
  · intro hfit
    have hrowsInt := castInt_eq_iff.mp hfit.rowsKept
    have hcolumnsInt := castInt_eq_iff.mp hfit.columnsKept
    have hholds := hargs hfit.rowsKept hfit.columnsKept hfit.innerKept
    refine gemmRoom_of_runs threads fresh hholds hrowsInt hcolumnsInt hrows hinner hcolumns ?_
    intro blockIdx hstartY hstartX
    have hends := gemmTiled_endsIn threads fresh hholds hrowsInt hcolumnsInt hstartY hstartX
    apply hends.exists_ok
    intro fault hfault
    rw [hfault.1]
    exact hfit.kernel blockIdx ⟨0, 0⟩ ⟨kGemmTile_pos, kGemmTile_pos⟩ hstartY hstartX
  · intro hroom
    have hrowsKept := castInt_of_lt hroom.rowsInt
    have hcolumnsKept := castInt_of_lt hroom.columnsInt
    have hinnerKept : castInt inner = inner := by
      have hcounter := hroom.counter
      apply castInt_of_lt
      unfold kGemmTile at hcounter
      omega
    refine ⟨hrowsKept, hinnerKept, hcolumnsKept, ?_⟩
    intro blockIdx threadIdx _ hrow hcolumn hoverflow
    have hends := gemmTiled_endsIn threads fresh (hargs hrowsKept hcolumnsKept hinnerKept)
      hroom.rowsInt hroom.columnsInt (Nat.lt_of_le_of_lt (Nat.le_add_right _ _) hrow)
      (Nat.lt_of_le_of_lt (Nat.le_add_right _ _) hcolumn)
    exact (hends .overflow hoverflow).2 hroom

end gemm

/-! ## Attention -/

/-- **Room for the indexes of attention.**  The dimensions are `int`s, and so is the last
index of each matrix. -/
structure AttentionRoom (queries keys depth values : Nat) : Prop where
  queriesInt : queries < 2 ^ 31
  depthInt : depth < 2 ^ 31
  valuesInt : values < 2 ^ 31
  query : queries * depth ≤ 2 ^ 31
  key : keys * depth ≤ 2 ^ 31
  value : keys * values ≤ 2 ^ 31
  output : queries * values ≤ 2 ^ 31

section attention

variable {α : Type} [Field α] [LinearOrder α] {args : AttentionArgs α}
  {queries keys depth values : Nat} {q k v : Nat → Nat → α} {blockIdx threadIdx : Idx}

omit [LinearOrder α] in
/-- The product of a query with a key can only overflow. -/
theorem keyScore_endsIn (h : args.Holds queries keys depth values q k v) {i j : Nat}
    (hi : i < queries) (hj : j < keys) :
    EndsIn (OverflowUnless (AttentionRoom queries keys depth values)) (keyScore args i j) := by
  apply endsIn_loop
  intro d hd score
  rw [h.depth, Int.toNat_natCast] at hd
  have hlt := (mem_upTo.mp hd).2
  apply EndsIn.bind (h.query.endsIn_cellAt (fun hroom => hroom.query) rfl h.depth rfl hi hlt)
  intro x _
  apply EndsIn.bind (h.key.endsIn_cellAt (fun hroom => hroom.key) rfl h.depth rfl hj hlt)
  intro y _
  exact endsIn_ok _

/-- The body of the first loop over keys can only overflow. -/
theorem scoreTurn_endsIn (h : args.Holds queries keys depth values q k v)
    (hkeys : keys ≤ scoresSize) {i j : Nat} (hi : i < queries) (hj : j < keys)
    (s : (Nat → α) × α) :
    EndsIn (OverflowUnless (AttentionRoom queries keys depth values)) (scoreTurn args i j s) := by
  have hsize : j < scoresSize := by omega
  apply EndsIn.bind (keyScore_endsIn h hi hj)
  intro score _
  rw [setScore, if_pos hsize, ok_bind, scoreAt, if_pos hsize, ok_bind]
  exact endsIn_ok _

omit [LinearOrder α] in
/-- The body of the second loop over keys stays inside of the scores. -/
theorem exponentialTurn_endsIn {errors : Fault → Prop} (exp : α → α) (maximum : α) {j : Nat}
    (hsize : j < scoresSize) (s : (Nat → α) × α) :
    EndsIn errors (exponentialTurn exp maximum j s) := by
  rw [exponentialTurn, scoreAt, if_pos hsize, ok_bind, setScore, if_pos hsize, ok_bind, scoreAt,
    if_pos hsize, ok_bind]
  exact endsIn_ok _

omit [LinearOrder α] in
/-- The sum of the value rows can only overflow. -/
theorem valueSum_endsIn (h : args.Holds queries keys depth values q k v)
    (hkeys : keys ≤ scoresSize) (scores : Nat → α) (denominator : α) {d : Nat}
    (hd : d < values) :
    EndsIn (OverflowUnless (AttentionRoom queries keys depth values))
      (valueSum args scores denominator d) := by
  apply endsIn_loop
  intro j hj result
  rw [h.keys, Int.toNat_natCast] at hj
  have hlt := (mem_upTo.mp hj).2
  rw [scoreAt, if_pos (by omega), ok_bind]
  apply EndsIn.bind (h.value.endsIn_cellAt (fun hroom => hroom.value) rfl h.valueDim rfl hlt hd)
  intro x _
  exact endsIn_ok _

/-- **The attention kernel can only overflow**, and that only without room for the
indexes. -/
theorem qkvAttention_endsIn (exp : α → α) (stack : Idx → Idx → Nat → α)
    (h : args.Holds queries keys depth values q k v) (hkeys : keys ≤ scoresSize)
    (hqueries : queries < 2 ^ 31) (hrow : attentionRow blockIdx threadIdx < queries) :
    EndsIn (OverflowUnless (AttentionRoom queries keys depth values))
      (qkvAttention exp stack args blockIdx threadIdx) := by
  have hrowInt : queryRow blockIdx threadIdx = (attentionRow blockIdx threadIdx : Nat) :=
    castInt_of_lt (Nat.lt_trans hrow hqueries)
  simp only [qkvAttention, hrowInt, h.queries, h.keys, h.valueDim, h.outputSize,
    Int.toNat_natCast]
  generalize attentionRow blockIdx threadIdx = i at hrow
  rw [if_neg (by omega)]
  apply EndsIn.bind
  · apply endsIn_loop
    intro j hj s
    exact scoreTurn_endsIn h hkeys hrow (mem_upTo.mp hj).2 s
  · intro s _
    apply EndsIn.bind
    · apply endsIn_loop
      intro j hj e
      have hlt := (mem_upTo.mp hj).2
      exact exponentialTurn_endsIn exp s.2 (by omega) e
    · intro e _
      apply endsIn_gather
      intro d hd
      have hlt := (mem_upTo.mp hd).2
      have hcell := RowMajor.cell_lt hrow hlt
      apply EndsIn.bind (valueSum_endsIn h hkeys e.1 e.2 hlt)
      intro result _
      apply endsIn_cellIndex_bind rfl rfl rfl
      · intro hroom
        exact Nat.lt_of_lt_of_le hcell hroom.output
      · exact endsIn_writeAt hrow hlt blockIdx threadIdx result

/-! ## What a thread that ends has computed -/

omit [LinearOrder α] in
/-- A product of a query with a key has read both rows to their ends. -/
theorem keyScore_ok (h : args.Holds queries keys depth values q k v) {i j d : Nat} {score : α}
    (hd : d < depth) (hrun : keyScore args i j = .ok score) :
    i * depth + d < 2 ^ 31 ∧ j * depth + d < 2 ^ 31 := by
  have hmem : d ∈ upTo 0 args.depth.toNat := by
    rw [h.depth, Int.toNat_natCast]
    exact mem_upTo.mpr ⟨Nat.zero_le d, hd⟩
  obtain ⟨s, s', hturn⟩ := loop_ran hrun hmem
  obtain ⟨x, hx, hturn⟩ := bind_ok hturn
  obtain ⟨y, hy, _⟩ := bind_ok hturn
  have hquery := cellAt_ok hx
  have hkey := cellAt_ok hy
  rw [h.depth, ← Int.natCast_mul] at hquery hkey
  omega

omit [LinearOrder α] in
/-- A sum of value rows has read its entry of every row. -/
theorem valueSum_ok (h : args.Holds queries keys depth values q k v) {scores : Nat → α}
    {denominator result : α} {j d : Nat} (hj : j < keys)
    (hrun : valueSum args scores denominator d = .ok result) : j * values + d < 2 ^ 31 := by
  have hmem : j ∈ upTo 0 args.keys.toNat := by
    rw [h.keys, Int.toNat_natCast]
    exact mem_upTo.mpr ⟨Nat.zero_le j, hj⟩
  obtain ⟨s, s', hturn⟩ := loop_ran hrun hmem
  obtain ⟨score, _, hturn⟩ := bind_ok hturn
  obtain ⟨x, hx, _⟩ := bind_ok hturn
  have hvalue := cellAt_ok hx
  rw [h.valueDim, ← Int.natCast_mul] at hvalue
  omega

/-- **A thread that ends needs room.**  The last one, for all matrices. -/
theorem attentionRoom_of_run {exp : α → α} {stack : Idx → Idx → Nat → α}
    (h : args.Holds queries keys depth values q k v) (hqueriesInt : queries < 2 ^ 31)
    (hdepthInt : depth < 2 ^ 31) (hvaluesInt : values < 2 ^ 31) (hqueries : 1 ≤ queries)
    (hkeys : 1 ≤ keys) (hdepth : 1 ≤ depth) (hvalues : 1 ≤ values)
    (hrow : attentionRow blockIdx threadIdx = queries - 1) {stores : List (Store α)}
    (hrun : qkvAttention exp stack args blockIdx threadIdx = .ok stores) :
    AttentionRoom queries keys depth values := by
  have hrowInt : queryRow blockIdx threadIdx = ((queries - 1 : Nat) : Int) := by
    rw [← hrow]
    exact castInt_of_lt (show attentionRow blockIdx threadIdx < 2 ^ 31 by omega)
  simp only [qkvAttention, hrowInt, h.queries, h.keys, h.valueDim, Int.toNat_natCast] at hrun
  rw [if_neg (by omega)] at hrun
  obtain ⟨s, hscores, hrun⟩ := bind_ok hrun
  obtain ⟨e, _, hstores⟩ := bind_ok hrun
  obtain ⟨s₁, s₂, hturn⟩ := loop_ran hscores
    (mem_upTo.mpr ⟨Nat.zero_le (keys - 1), by omega⟩)
  obtain ⟨score, hscore, _⟩ := bind_ok hturn
  obtain ⟨hquery, hkey⟩ := keyScore_ok h (show depth - 1 < depth by omega) hscore
  obtain ⟨new, hnew⟩ := gather_ran hstores
    (mem_upTo.mpr ⟨Nat.zero_le (values - 1), by omega⟩)
  obtain ⟨result, hresult, hnew⟩ := bind_ok hnew
  have hvalue := valueSum_ok h (show keys - 1 < keys by omega) hresult
  obtain ⟨index, hindex, _⟩ := bind_ok hnew
  obtain ⟨_, houtput⟩ := cellIndex_ok hindex
  rw [← Int.natCast_mul] at houtput
  exact ⟨hqueriesInt, hdepthInt, hvaluesInt, area_le_of_last hqueries hdepth hquery,
    area_le_of_last hkeys hdepth hkey, area_le_of_last hkeys hvalues hvalue,
    area_le_of_last hqueries hvalues (by omega)⟩

/-- **The indexes of attention fit in `int`.**  The conversions keep the dimensions, and no
thread in range overflows, whatever the scale and the mask; `attention_cuda` launches the
kernel with these arguments. -/
structure AttentionIndexesFit (exp : α → α) (stack : Idx → Idx → Nat → α)
    (query key value : Tensor α) (queries keys depth values : Nat) : Prop where
  queriesKept : castInt queries = queries
  keysKept : castInt keys = keys
  depthKept : castInt depth = depth
  valuesKept : castInt values = values
  kernel : ∀ scale causal blockIdx threadIdx, threadIdx.x < kAttentionBlock →
    attentionRow blockIdx threadIdx < queries →
    qkvAttention exp stack ⟨query.storage, key.storage, value.storage, queries * values,
      castInt queries, castInt keys, castInt depth, castInt values, scale, causal⟩
      blockIdx threadIdx ≠ .error .overflow

/-- **When the indexes of attention fit.** -/
theorem attentionIndexesFit_iff (exp : α → α) (stack : Idx → Idx → Nat → α)
    {query key value : Tensor α} (hquery : query.shape = [queries, depth])
    (hkey : key.shape = [keys, depth]) (hvalue : value.shape = [keys, values])
    (hqueries : 1 ≤ queries) (hkeys : 1 ≤ keys) (hdepth : 1 ≤ depth) (hvalues : 1 ≤ values)
    (hmax : keys ≤ scoresSize) :
    AttentionIndexesFit exp stack query key value queries keys depth values ↔
      AttentionRoom queries keys depth values := by
  have hargs : ∀ {n m d w : Int} (scale : α) (causal : Bool), n = queries → m = keys →
      d = depth → w = values → AttentionArgs.Holds ⟨query.storage, key.storage, value.storage,
        queries * values, n, m, d, w, scale, causal⟩ queries keys depth values
        (query.entry depth) (key.entry depth) (value.entry values) :=
    fun _ _ hn hm hd hw => ⟨(Tensor.cells_entry hquery).cells, (Tensor.cells_entry hkey).cells,
      (Tensor.cells_entry hvalue).cells, rfl, hn, hm, hd, hw⟩
  constructor
  · intro hfit
    have hqueriesInt := castInt_eq_iff.mp hfit.queriesKept
    have hholds := hargs 1 false hfit.queriesKept hfit.keysKept
      hfit.depthKept hfit.valuesKept
    have hrow : attentionRow ⟨(queries - 1) / kAttentionBlock, 0⟩
        ⟨(queries - 1) % kAttentionBlock, 0⟩ = queries - 1 :=
      Nat.div_add_mod' (queries - 1) kAttentionBlock
    obtain ⟨stores, hrun⟩ := (qkvAttention_endsIn exp stack hholds hmax hqueriesInt
      (by rw [hrow]; omega)).exists_ok (by
        intro fault hfault
        rw [hfault.1]
        exact hfit.kernel 1 false _ _ (Nat.mod_lt _ (by decide)) (by rw [hrow]; omega))
    exact attentionRoom_of_run hholds hqueriesInt (castInt_eq_iff.mp hfit.depthKept)
      (castInt_eq_iff.mp hfit.valuesKept) hqueries hkeys hdepth hvalues hrow hrun
  · intro hroom
    have hqueriesKept := castInt_of_lt hroom.queriesInt
    have hdepthKept := castInt_of_lt hroom.depthInt
    have hvaluesKept := castInt_of_lt hroom.valuesInt
    have hkeysKept : castInt keys = keys := by
      apply castInt_of_lt
      unfold scoresSize at hmax
      omega
    refine ⟨hqueriesKept, hkeysKept, hdepthKept, hvaluesKept, ?_⟩
    intro scale causal blockIdx threadIdx _ hrow hoverflow
    have hends := qkvAttention_endsIn exp stack
      (hargs scale causal hqueriesKept hkeysKept hdepthKept hvaluesKept)
      hmax hroom.queriesInt hrow
    exact (hends .overflow hoverflow).2 hroom

end attention

/-! ## Both launches -/

section launches

variable {α β : Type} [Zero α] [Add α] [Mul α] [Field β] [LinearOrder β]

/-- **When launches index without overflow.**  For tensors that `gemm_cuda` and
`attention_cuda` accept, with positive dimensions: the conversions keep the dimensions and
no thread in range overflows if and only if there is room for the last index of each matrix,
and for the counter of the loop over tiles. -/
theorem launch_indexes_fit_iff (threads : TurnOrder) (fresh : Uninitialized α)
    {lhs rhs : Tensor α} {rows inner columns : Nat} (hlhs : lhs.shape = [rows, inner])
    (hrhs : rhs.shape = [inner, columns]) (hrows : 1 ≤ rows) (hinner : 1 ≤ inner)
    (hcolumns : 1 ≤ columns) (exp : β → β) (stack : Idx → Idx → Nat → β)
    {query key value : Tensor β} {queries keys depth values : Nat}
    (hquery : query.shape = [queries, depth]) (hkey : key.shape = [keys, depth])
    (hvalue : value.shape = [keys, values]) (hqueries : 1 ≤ queries) (hkeys : 1 ≤ keys)
    (hdepth : 1 ≤ depth) (hvalues : 1 ≤ values) (hmax : keys ≤ scoresSize) :
    (GemmIndexesFit threads fresh lhs rhs rows inner columns ↔ GemmRoom rows inner columns) ∧
      (AttentionIndexesFit exp stack query key value queries keys depth values ↔
        AttentionRoom queries keys depth values) :=
  ⟨gemmIndexesFit_iff threads fresh hlhs hrhs hrows hinner hcolumns,
    attentionIndexesFit_iff exp stack hquery hkey hvalue hqueries hkeys hdepth hvalues hmax⟩

/-- A ragged product, and attention of two queries to three keys. -/
theorem launch_indexes_fit_iff_example :
    GemmIndexesFit .sequential ⟨fun _ => 7, fun _ _ => 7, fun _ _ => 7⟩
      (⟨[34, 3], List.replicate 102 1, by decide +kernel⟩ : Tensor Nat)
      ⟨[3, 35], List.range 105, by decide +kernel⟩ 34 3 35 ∧
    AttentionIndexesFit Real.exp (fun _ _ _ => 7)
      ⟨[2, 1], [1, 2], rfl⟩ ⟨[3, 1], [1, 2, 3], rfl⟩ ⟨[3, 1], [4, 5, 6], rfl⟩ 2 3 1 1 := by
  have h := launch_indexes_fit_iff .sequential ⟨fun _ => 7, fun _ _ => 7, fun _ _ => 7⟩
    (show (⟨[34, 3], List.replicate 102 1, by decide +kernel⟩ : Tensor Nat).shape = [34, 3]
      from rfl)
    (show (⟨[3, 35], List.range 105, by decide +kernel⟩ : Tensor Nat).shape = [3, 35] from rfl)
    (by decide) (by decide) (by decide) Real.exp (fun _ _ _ => 7)
    (show (⟨[2, 1], [1, 2], rfl⟩ : Tensor ℝ).shape = [2, 1] from rfl)
    (show (⟨[3, 1], [1, 2, 3], rfl⟩ : Tensor ℝ).shape = [3, 1] from rfl)
    (show (⟨[3, 1], [4, 5, 6], rfl⟩ : Tensor ℝ).shape = [3, 1] from rfl)
    (by decide) (by decide) (by decide) (by decide) (by decide)
  exact ⟨h.1.mpr ⟨by decide, by decide, by decide, by decide, by decide, by decide⟩,
    h.2.mpr ⟨by decide, by decide, by decide, by decide, by decide, by decide, by decide⟩⟩

/-- **A left operand that is too large.**  For 32769 rows of 65536 entries each dimension is
an `int`, and the product of row 32768 with 65536 is not: the last block of a product with
one column overflows. -/
theorem launch_index_overflows :
    ∃ lhs rhs : Tensor Nat, lhs.shape = [32769, 65536] ∧ rhs.shape = [65536, 1] ∧
      castInt 32769 = 32769 ∧ castInt 65536 = 65536 ∧ tileRow ⟨0, 1024⟩ ⟨0, 0⟩ < 32769 ∧
      tileColumn ⟨0, 1024⟩ ⟨0, 0⟩ < 1 ∧
      gemmTiled .sequential ⟨fun _ => 0, fun _ _ => 0, fun _ _ => 0⟩
        ⟨lhs.storage, rhs.storage, 32769 * 1, castInt 32769, castInt 1, castInt 65536⟩ ⟨0, 1024⟩
          = .error .overflow := by
  obtain ⟨lhs, _, hlhs⟩ := @Tensor.new_cells Nat _ 32769 65536 (by decide) (by decide)
  obtain ⟨rhs, _, hrhs⟩ := @Tensor.new_cells Nat _ 65536 1 (by decide) (by decide)
  refine ⟨lhs, rhs, hlhs.shape, hrhs.shape, rfl, rfl, by decide, by decide, ?_⟩
  have hargs : GemmArgs.Holds ⟨lhs.storage, rhs.storage, 32769 * 1, castInt 32769, castInt 1,
      castInt 65536⟩ 32769 65536 1 (fun _ _ => 0) (fun _ _ => 0) :=
    ⟨hlhs.cells, hrhs.cells, rfl, rfl, rfl, rfl⟩
  have hrow : gemmRow ⟨0, 1024⟩ ⟨0, 0⟩ = ((32768 : Nat) : Int) := castInt_of_lt (by decide)
  cases hrun : gemmTiled .sequential ⟨fun _ => 0, fun _ _ => 0, fun _ _ => 0⟩
      ⟨lhs.storage, rhs.storage, 32769 * 1, castInt 32769, castInt 1, castInt 65536⟩
      ⟨0, 1024⟩ with
  | error fault =>
      have hfault := gemmTiled_endsIn _ _ hargs (by decide) (by decide) (by decide) (by decide)
        fault hrun
      rw [hfault.1]
  | ok stores =>
      obtain ⟨_, hturns, _⟩ := gemmTiled_ok hargs hrun
      obtain ⟨s, s', hturn⟩ := hturns 0 (by decide)
      obtain ⟨⟨value, hload⟩, _⟩ := tileTurn_ok hturn
        (show InTile ⟨0, 0⟩ from ⟨kGemmTile_pos, kGemmTile_pos⟩)
      have hfits := lhsElement_ok hargs hrow (by decide) (Nat.zero_add 0) (by decide) hload
      exact absurd hfits (by decide)

end launches

end Gpuforge
