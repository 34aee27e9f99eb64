import CommonTools.Lib.Loop
import CommonTools.Lib.Runs
import CommonTools.Segment.Validate
import Mathlib.Tactic.NormNum

/-! # The table does not change the scores

The plain computation multiplies the embeddings of a window with a filter, takes
the largest product over all windows and applies the output layer. A row of the
table is found by its word and its place among the rows of all filters; windows
behind the end of the query hold nothing but padding. -/
namespace CommonTools.Segment
open CommonTools.Lib Finset

/-! ## The plain computation -/

/-- The product of an embedding with the row `j` of a filter. -/
def product (a : Arrays) (id convnum j f : Nat) : ℚ :=
  ∑ k ∈ range dimnum, a.embd (id * dimnum + k) * a.cw convnum (j * filnum * dimnum + k * filnum + f)

/-- The word at place `i` of the sequence: unknown words are `FIL`, and behind
the query stands `PAD`. -/
def token (m : Model) (queryseg : List Bytes) (i : Nat) : Int :=
  match queryseg[i]? with
  | some word => (m.idmap word).getD m.filid
  | none => m.padid

/-- The filter `f` at the window `i` of a sequence of ids. -/
def directWindow (a : Arrays) (ids : Nat → Int) (convnum f i : Nat) : ℚ :=
  ∑ j ∈ range convnum, product a (ids (i + j)).toNat convnum j f

/-- The pooled value of a filter, over all windows of the sequence. -/
def directPool (a : Arrays) (ids : Nat → Int) (convnum f : Nat) : ℚ :=
  maxFrom (-999) (directWindow a ids convnum f) (padnum - convnum + 1) + a.cb convnum f

def directScore (a : Arrays) (ids : Nat → Int) (c : Nat) : ℚ :=
  ∑ w ∈ range 3, ∑ f ∈ range filnum, directPool a ids (w + 3) f * a.ow ((w * filnum + f) * 2 + c) +
    a.ob c

/-! ## The places of the table -/

structure Row (convnum j f : Nat) : Prop where
  width : convnum ∈ [3, 4, 5]
  row : j < convnum
  filter : f < filnum

/-- The width that has the row `r` of all twelve. -/
def widthAt (r : Nat) : Nat := if r < 3 then 3 else if r < 7 then 4 else 5

/-- What the cell `i` of the table is for. -/
def cellAt (a : Arrays) (i : Nat) : ℚ :=
  product a (i / layersize) (widthAt (i % layersize / filnum))
    (i % layersize / filnum - convsum (widthAt (i % layersize / filnum))) (i % filnum)

theorem Row.rows {convnum j f : Nat} (h : Row convnum j f) :
    j + convsum convnum < 12 ∧ widthAt (j + convsum convnum) = convnum := by
  have hw := h.width
  have hj := h.row
  simp only [List.mem_cons, List.not_mem_nil, or_false] at hw
  rcases hw with rfl | rfl | rfl
  · simp only [convsum, widthAt]
    refine ⟨?_, if_pos ?_⟩ <;> simp <;> omega
  · simp only [convsum, widthAt]
    refine ⟨?_, ?_⟩
    · simp; omega
    · rw [if_neg (by simp), if_pos (by simp; omega)]
  · simp only [convsum, widthAt]
    refine ⟨?_, ?_⟩
    · simp; omega
    · rw [if_neg (by simp), if_neg (by simp)]

/-- The places are told apart by word, row and filter. -/
theorem Row.cellAt {convnum j f : Nat} (h : Row convnum j f) (a : Arrays) (id : Nat) :
    cellAt a ((j + convsum convnum) * filnum + f + id * (3 + 4 + 5) * filnum) =
      product a id convnum j f := by
  obtain ⟨hrow, hwidth⟩ := h.rows
  have hf : f < 128 := h.filter
  have hid : ((j + convsum convnum) * filnum + f + id * (3 + 4 + 5) * filnum) / layersize = id := by
    simp only [filnum, layersize]
    omega
  have hr : ((j + convsum convnum) * filnum + f + id * (3 + 4 + 5) * filnum) % layersize / filnum =
      j + convsum convnum := by
    simp only [filnum, layersize]
    omega
  have hfil : ((j + convsum convnum) * filnum + f + id * (3 + 4 + 5) * filnum) % filnum = f := by
    simp only [filnum]
    omega
  rw [Segment.cellAt, hid, hr, hfil, hwidth, Nat.add_sub_cancel]

/-- The loops write the products of the words into the cells of their places. -/
theorem precompute_assigns (a : Arrays) (idmax : Nat) :
    Assigns (Segment.cellAt a)
      (⋃ id ∈ List.range idmax, ⋃ convnum ∈ [3, 4, 5], ⋃ f ∈ List.range filnum,
        ⋃ j ∈ List.range convnum,
          {(j + convsum convnum) * filnum + f + id * (3 + 4 + 5) * filnum})
      (fun _ => 0) (precompute a idmax) := by
  refine Assigns.foldl _ fun id _ table => ?_
  refine Assigns.foldl table fun convnum hw table => ?_
  refine Assigns.foldl table fun f hf table => ?_
  refine Assigns.foldl table fun j hj table => Assigns.single ?_ table
  rw [Row.cellAt ⟨hw, List.mem_range.mp hj, List.mem_range.mp hf⟩, product]
  exact (foldl_add_eq_sum _ 0 dimnum).trans (zero_add _)

/-- Every cell of a word in the table is its product. -/
theorem precompute_eq (a : Arrays) {idmax id convnum j f : Nat} (hid : id < idmax)
    (h : Row convnum j f) :
    precompute a idmax ((j + convsum convnum) * filnum + f + id * (3 + 4 + 5) * filnum) =
      product a id convnum j f := by
  rw [← h.cellAt]
  refine precompute_assigns a idmax _ (.inl ?_)
  refine Set.mem_iUnion₂.mpr ⟨id, List.mem_range.mpr hid, ?_⟩
  refine Set.mem_iUnion₂.mpr ⟨convnum, h.width, ?_⟩
  refine Set.mem_iUnion₂.mpr ⟨f, List.mem_range.mpr h.filter, ?_⟩
  exact Set.mem_iUnion₂.mpr ⟨j, List.mem_range.mpr h.row, rfl⟩

/-! ## The ids of a model -/

/-- The first number of a row is written inside the array. -/
theorem readRow_start {atof : Bytes → ℚ} {size n skip : Nat} {arr arr' : Nat → ℚ} {start : Int}
    {vec : List Bytes} (h : readRow atof size arr start (n + 1) skip vec = some arr') :
    0 ≤ start := by
  rw [readRow, List.range_succ_eq_map, List.foldlM_cons] at h
  obtain ⟨arr₁, hfirst, -⟩ := Option.bind_eq_some_iff.mp h
  obtain ⟨text, -, hstore⟩ := Option.bind_eq_some_iff.mp hfirst
  rw [store] at hstore
  split at hstore
  · rename_i hin
    have hpos := hin.1
    omega
  · cases hstore

def IdsPos (st : Loading) : Prop := ∀ word id, st.idmap word = some id → 0 ≤ id

/-- A branch that stores one array, or what the branches behind it do. -/
theorem of_ite_bind {α β : Type} {c : Prop} [Decidable c] {read : Option α} {put : α → β}
    {rest : Option β} {y : β} (h : (if c then read >>= fun a => some (put a) else rest) = some y) :
    (∃ a, y = put a) ∨ rest = some y := by
  by_cases hc : c
  · rw [if_pos hc] at h
    obtain ⟨a, -, ha⟩ := Option.bind_eq_some_iff.mp h
    exact .inl ⟨a, (Option.some.inj ha).symm⟩
  · exact .inr (by rwa [if_neg hc] at h)

theorem idsPos_init (new : Arrays) : IdsPos (Loading.init new) := fun word id h => by
  rw [Loading.init] at h
  cases h

theorem loadLine_idsPos {atof : Bytes → ℚ} {st st' : Loading} {line : Bytes} (hst : IdsPos st)
    (h : loadLine atof st line = some st') : IdsPos st' := by
  rw [loadLine] at h
  split at h
  · obtain rfl := Option.some.inj h
    exact hst
  · obtain rfl := Option.some.inj h
    exact hst
  · rename_i vec0 vec1 rest _
    dsimp only at h
    by_cases hword : vec1 = ascii "EMBEDDING"
    · rw [if_pos hword] at h
      obtain ⟨text, -, h⟩ := Option.bind_eq_some_iff.mp h
      obtain ⟨embd, hrow, h⟩ := Option.bind_eq_some_iff.mp h
      obtain rfl := Option.some.inj h
      have hstart : 0 ≤ atoi (cstr text) * 100 := readRow_start hrow
      intro word id hid
      have hupdate : Function.update st.idmap vec0 (some (atoi (cstr text))) word = some id := hid
      by_cases hword : word = vec0
      · rw [hword, Function.update_self] at hupdate
        obtain rfl := Option.some.inj hupdate
        omega
      · rw [Function.update_of_ne hword] at hupdate
        exact hst word id hupdate
    · rw [if_neg hword] at h
      -- the other lines leave the words alone
      repeat
        obtain ⟨arr, rfl⟩ | h := of_ite_bind h
        · exact hst
      obtain rfl := Option.some.inj h
      exact hst

theorem loadLines_idsPos {atof : Bytes → ℚ} {st st' : Loading} (hst : IdsPos st) :
    ∀ {lines : List Bytes}, lines.foldlM (loadLine atof) st = some st' → IdsPos st' :=
  fun h => run_keeps (P := fun _ _ => True) (fun hst _ h => loadLine_idsPos hst h) hst
    (fun _ _ _ _ _ _ => trivial) h

/-! ## A query -/

section
variable {m : Model} {queryseg : List Bytes}

/-- How many of the words at hand are known. -/
def known (m : Model) (queryseg : List Bytes) : Nat :=
  (queryseg.take padnum).countP fun word => (m.idmap word).isSome

theorem lookUp_upto (m : Model) (queryseg : List Bytes) : ∀ n : Nat,
    (List.range n).foldl (lookUpRound m queryseg) ([], 0) =
      ((List.range n).map (token m queryseg),
        (((queryseg.take n).countP fun word => (m.idmap word).isSome : Nat) : ℚ))
  | 0 => by simp
  | n + 1 => by
    rw [List.range_succ, List.foldl_append, lookUp_upto m queryseg n, List.map_append,
      List.take_add_one, List.countP_append, List.foldl_cons, List.foldl_nil, lookUpRound]
    cases hword : queryseg[n]? with
    | none => simp [token, hword]
    | some word => cases hid : m.idmap word <;> simp [token, hword, hid]

/-- The ids of a query are places of the table. -/
structure InTable (m : Model) (queryseg : List Bytes) (idmax : Nat) : Prop where
  midsize : m.midsize = idmax * (3 + 4 + 5) * filnum
  convidres : m.convidres = precompute m.arrays idmax
  ids : ∀ i, ∃ id : Nat, token m queryseg i = id ∧ id < idmax

/-- The table sums a window as the plain computation does. -/
theorem windowSum_eq {idmax : Nat} (h : InTable m queryseg idmax) {convnum f i : Nat}
    (hw : convnum ∈ [3, 4, 5]) (hf : f < filnum) (hi : i + convnum ≤ padnum) :
    windowSum m ((List.range padnum).map (token m queryseg)) convnum f i =
      some (directWindow m.arrays (token m queryseg) convnum f i) := by
  have hread : ∀ j ∈ List.range convnum,
      (((List.range padnum).map (token m queryseg))[i + j]?.bind fun id =>
        m.at? ((j + convsum convnum) * filnum + f + id * layersize)) =
          some (product m.arrays (token m queryseg (i + j)).toNat convnum j f) := by
    intro j hj
    have hj := List.mem_range.mp hj
    have hrow : Row convnum j f := ⟨hw, hj, hf⟩
    obtain ⟨id, hid, hlt⟩ := h.ids (i + j)
    have hplace : ((j : Int) + (convsum convnum : Nat)) * (filnum : Nat) + f +
        (id : Int) * (layersize : Nat) =
        (((j + convsum convnum) * filnum + f + id * (3 + 4 + 5) * filnum : Nat) : Int) := by
      simp only [filnum, layersize]
      omega
    have hin : (j + convsum convnum) * filnum + f + id * (3 + 4 + 5) * filnum < m.midsize := by
      have hlast := hrow.rows.1
      have hf : f < 128 := hf
      rw [h.midsize]
      simp only [filnum]
      omega
    rw [List.getElem?_map, List.getElem?_range (by omega), Option.map_some, Option.bind_some, hid,
      hplace, Model.at?, if_pos ⟨Int.natCast_nonneg _, Int.ofNat_lt.mpr hin⟩, Int.toNat_natCast,
      Int.toNat_natCast, h.convidres, precompute_eq _ hlt hrow]
  have hsum := foldlM_some (fun res x : ℚ => res + x) 0 hread
  rw [foldl_add_eq_sum, zero_add] at hsum
  rw [windowSum, directWindow, ← hsum]
  congr 1
  funext res j
  exact (Option.bind_assoc _ _ _).symm

/-- Behind the query all words of a window are padding. -/
theorem directWindow_padding (a : Arrays) {convnum f i : Nat} (hi : queryseg.length ≤ i) :
    directWindow a (token m queryseg) convnum f i =
      directWindow a (token m queryseg) convnum f queryseg.length := by
  have hpad : ∀ j, queryseg.length ≤ j → token m queryseg j = m.padid := fun j hj => by
    rw [token, List.getElem?_eq_none hj]
  refine Finset.sum_congr rfl fun j _ => ?_
  rw [hpad (i + j) (by omega), hpad (queryseg.length + j) (by omega)]

/-- The windows that are visited have the largest sum of all. -/
theorem relu_eq {idmax : Nat} (h : InTable m queryseg idmax) {convnum f : Nat}
    (hw : convnum ∈ [3, 4, 5]) (hf : f < filnum) :
    relu m ((List.range padnum).map (token m queryseg)) queryseg.length convnum f =
      some (maxFrom (-999) (directWindow m.arrays (token m queryseg) convnum f)
        (padnum - convnum + 1)) := by
  have hpad : padnum = 12 := rfl
  have hwidth : 3 ≤ convnum ∧ convnum ≤ 5 := by
    simp only [List.mem_cons, List.not_mem_nil, or_false] at hw
    omega
  have hvisit : relu m ((List.range padnum).map (token m queryseg)) queryseg.length convnum f =
      some (maxFrom (-999) (directWindow m.arrays (token m queryseg) convnum f)
        (min (padnum - convnum + 1) (queryseg.length + 1))) := by
    have hread : ∀ i ∈ List.range (min (padnum - convnum + 1) (queryseg.length + 1)),
        windowSum m ((List.range padnum).map (token m queryseg)) convnum f i =
          some (directWindow m.arrays (token m queryseg) convnum f i) := fun i hi => by
      have hi := List.mem_range.mp hi
      exact windowSum_eq h hw hf (by omega)
    have hmax : ∀ relu res : ℚ, (if res > relu then res else relu) = max relu res :=
      fun relu res => (max_def_lt relu res).symm
    have hrun := foldlM_some (max : ℚ → ℚ → ℚ) (-999) hread
    simp only [Segment.relu, hmax, Option.bind_eq_bind]
    exact hrun
  rw [hvisit]
  by_cases hlen : padnum - convnum + 1 ≤ queryseg.length + 1
  · rw [min_eq_left hlen]
  · rw [min_eq_right (by omega)]
    exact congrArg some (maxFrom_repeat (by omega) fun i hi _ => directWindow_padding _ hi)

theorem pooled_place (w : Nat) {f : Nat} (hf : f < filnum) :
    (w * filnum + f) / filnum = w ∧ (w * filnum + f) % filnum = f := by
  have hf : f < 128 := hf
  simp only [filnum]
  omega

/-- What the cell `i` of `convres` is for. -/
def pooledAt (m : Model) (queryseg : List Bytes) (i : Nat) : ℚ :=
  directPool m.arrays (token m queryseg) (i / filnum + 3) (i % filnum)

/-- The loops write the pooled values into their cells. -/
theorem convolve_assigns {idmax : Nat} (h : InTable m queryseg idmax) :
    ∃ convres, convolve m ((List.range padnum).map (token m queryseg)) queryseg.length =
        some convres ∧
      Assigns (pooledAt m queryseg)
        (⋃ convnum ∈ [3, 4, 5], ⋃ f ∈ List.range filnum, {(convnum - 3) * filnum + f})
        (fun _ => 0) convres := by
  refine Assigns.foldlM _ fun convnum hw convres => ?_
  refine Assigns.foldlM convres fun f hf convres => ?_
  have hf := List.mem_range.mp hf
  refine ⟨_, by rw [relu_eq h hw hf]; rfl, Assigns.single ?_ convres⟩
  obtain ⟨hdiv, hmod⟩ := pooled_place (convnum - 3) hf
  have hwidth : convnum - 3 + 3 = convnum := by
    simp only [List.mem_cons, List.not_mem_nil, or_false] at hw
    omega
  rw [pooledAt, hdiv, hmod, hwidth, directPool]

/-- The cells of `convres` are the pooled values. -/
theorem convolve_eq {idmax : Nat} (h : InTable m queryseg idmax) :
    ∃ convres, convolve m ((List.range padnum).map (token m queryseg)) queryseg.length =
        some convres ∧
      ∀ w < 3, ∀ f < filnum, convres (w * filnum + f) =
        directPool m.arrays (token m queryseg) (w + 3) f := by
  obtain ⟨convres, hrun, hfill⟩ := convolve_assigns h
  refine ⟨convres, hrun, fun w hw f hf => ?_⟩
  obtain ⟨hdiv, hmod⟩ := pooled_place w hf
  have hmem : w + 3 ∈ [3, 4, 5] := by
    simp only [List.mem_cons, List.not_mem_nil, or_false]
    omega
  have hcell := hfill (w * filnum + f) (.inl (Set.mem_iUnion₂.mpr
    ⟨w + 3, hmem, Set.mem_iUnion₂.mpr ⟨f, List.mem_range.mpr hf, by
      rw [Nat.add_sub_cancel]
      rfl⟩⟩))
  rwa [pooledAt, hdiv, hmod] at hcell

theorem score_eq {convres : Nat → ℚ} (h : ∀ w < 3, ∀ f < filnum, convres (w * filnum + f) =
    directPool m.arrays (token m queryseg) (w + 3) f) (c : Nat) :
    score m convres c = directScore m.arrays (token m queryseg) c := by
  rw [score, foldl_add_eq_sum, zero_add, sum_range_blocks, directScore]
  congr 1
  refine Finset.sum_congr rfl fun w hw => Finset.sum_congr rfl fun f hf => ?_
  rw [h w (Finset.mem_range.mp hw) f (Finset.mem_range.mp hf)]

/-- What a loaded model takes over from the last line. -/
theorem loadmodel_eq {atof : Bytes → ℚ} {new : Arrays} {file : Bytes} {st : Loading}
    (hst : loadLines atof new file = some st)
    (hload : loadmodel atof new (some file) = some (0, some m)) :
    ∃ filid padid, st.idmap (ascii "<FIL/>") = some filid ∧
      st.idmap (ascii "<PAD/>") = some padid ∧
      m = ⟨st.toArrays, st.idmap, filid, padid, (st.idmax * (3 + 4 + 5) * filnum).toNat,
        precompute st.toArrays st.idmax.toNat⟩ := by
  rw [loadmodel] at hload
  simp only [hst, Option.bind_eq_bind, Option.bind_some] at hload
  split at hload
  · rename_i filid padid hfil hpad
    exact ⟨filid, padid, hfil, hpad, (Option.some.inj (Prod.mk.inj (Option.some.inj hload)).2).symm⟩
  · cases (Prod.mk.inj (Option.some.inj hload)).2

/-- With ids below `idmax` a loaded model has all places in its table. -/
theorem inTable_of_load {atof : Bytes → ℚ} {new : Arrays} {file : Bytes} {st : Loading}
    (hst : loadLines atof new file = some st)
    (hload : loadmodel atof new (some file) = some (0, some m))
    (hids : ∀ id, (id = m.filid ∨ id = m.padid ∨ ∃ word ∈ queryseg, m.idmap word = some id) →
      id < st.idmax) : InTable m queryseg st.idmax.toNat ∧ m.arrays = st.toArrays := by
  have hpos : IdsPos st := loadLines_idsPos (idsPos_init new) hst
  obtain ⟨filid, padid, hfil, hpad, rfl⟩ := loadmodel_eq hst hload
  have hplace : ∀ id, 0 ≤ id → id < st.idmax → ∃ n : Nat, id = n ∧ n < st.idmax.toNat :=
    fun id h0 hlt => ⟨id.toNat, by omega, by omega⟩
  refine ⟨⟨?_, rfl, fun i => ?_⟩, rfl⟩
  · simp only [filnum]
    omega
  · have hfilid := hplace filid (hpos _ _ hfil) (hids _ (.inl rfl))
    rw [token]
    cases hword : queryseg[i]? with
    | none => exact hplace padid (hpos _ _ hpad) (hids _ (.inr (.inl rfl)))
    | some word =>
      dsimp only
      cases hid : st.idmap word with
      | none => exact hfilid
      | some id =>
        exact hplace id (hpos _ _ hid)
          (hids _ (.inr (.inr ⟨word, List.mem_of_getElem? hword, hid⟩)))

/-- **The table does not change the scores.** -/
theorem validate_direct {atof : Bytes → ℚ} {new : Arrays} {file : Bytes} {st : Loading}
    (hst : loadLines atof new file = some st)
    (hload : loadmodel atof new (some file) = some (0, some m))
    (hratio : 6 / 10 ≤ (known m queryseg : ℚ) / (queryseg.length + 1 / 1000))
    (hids : ∀ id, (id = m.filid ∨ id = m.padid ∨ ∃ word ∈ queryseg, m.idmap word = some id) →
      id < st.idmax) :
    validate m queryseg = some (0, directScore st.toArrays (token m queryseg) 0,
      directScore st.toArrays (token m queryseg) 1) := by
  obtain ⟨htable, harrays⟩ := inTable_of_load hst hload hids
  obtain ⟨convres, hrun, hcells⟩ := convolve_eq htable
  rw [known] at hratio
  rw [validate, lookUp, lookUp_upto]
  dsimp only
  rw [if_neg (not_lt.mpr hratio), hrun]
  simp only [Option.bind_eq_bind, Option.bind_some]
  rw [score_eq hcells, score_eq hcells, harrays]

end

/-! ### A small model -/

/-- The line of a word whose embedding is a hundred equal numbers. -/
def wordLine (word id : Bytes) : Bytes :=
  word ++ [9] ++ ascii "EMBEDDING" ++ [9] ++ id ++ (List.replicate dimnum [9, 49]).flatten

/-- `FIL`, `PAD`, and the words `a` and `b`; the largest id is not in the table. -/
def smallFile : Bytes :=
  [10].intercalate [wordLine (ascii "<FIL/>") [48], wordLine (ascii "<PAD/>") [49],
    wordLine [97] [50], wordLine [98] [51]]

def noArrays : Arrays :=
  ⟨fun _ => 1, fun _ => 1, fun _ => 1, fun _ => 1, fun _ => 1, fun _ => 1, fun _ => 1, fun _ => 1,
    fun _ => 1⟩

theorem smallFile_loads :
    ∃ st m, loadLines (fun _ => 1) noArrays smallFile = some st ∧
      loadmodel (fun _ => 1) noArrays (some smallFile) = some (0, some m) ∧
      m.idmap = st.idmap ∧ m.filid = 0 ∧ m.padid = 1 ∧
      st.idmap [97] = some 2 ∧ st.idmap [98] = some 3 ∧ st.idmax = 3 := by
  have hrun : (loadLines (fun _ => 1) noArrays smallFile).map (fun st =>
      (st.idmap (ascii "<FIL/>"), st.idmap (ascii "<PAD/>"), st.idmap [97], st.idmap [98],
        st.idmax)) = some (some 0, some 1, some 2, some 3, 3) := by decide +kernel
  obtain ⟨st, hst, hids⟩ := Option.map_eq_some_iff.mp hrun
  simp only [Prod.mk.injEq] at hids
  obtain ⟨hfil, hpad, hids⟩ := hids
  obtain ⟨m, hload, hmap, hmfil, hmpad⟩ : ∃ m, loadmodel (fun _ => 1) noArrays (some smallFile) =
      some (0, some m) ∧ m.idmap = st.idmap ∧ m.filid = 0 ∧ m.padid = 1 := by
    simp only [loadmodel, hst, hfil, hpad, Option.bind_eq_bind, Option.bind_some]
    exact ⟨_, rfl, rfl, rfl, rfl⟩
  exact ⟨st, m, hst, hload, hmap, hmfil, hmpad, hids⟩

theorem validate_direct_small :
    ∃ st m, loadLines (fun _ => 1) noArrays smallFile = some st ∧
      loadmodel (fun _ => 1) noArrays (some smallFile) = some (0, some m) ∧
      validate m [[97]] = some (0, directScore st.toArrays (token m [[97]]) 0,
        directScore st.toArrays (token m [[97]]) 1) := by
  obtain ⟨st, m, hst, hload, hmap, hmfil, hmpad, hword, -, hmax⟩ := smallFile_loads
  refine ⟨st, m, hst, hload, validate_direct hst hload ?_ ?_⟩
  · have hknown : known m [[97]] = 1 := by
      rw [known, hmap]
      simp [hword]
    rw [hknown]
    norm_num
  · intro id hid
    rcases hid with rfl | rfl | ⟨word, hin, hid⟩
    · omega
    · omega
    · rw [List.mem_singleton.mp hin, hmap, hword] at hid
      obtain rfl := Option.some.inj hid
      omega

end CommonTools.Segment
