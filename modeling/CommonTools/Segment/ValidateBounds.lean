import CommonTools.Lib.PartialList
import CommonTools.Segment.ValidateSound

/-! # Where a query reads the table

`loadmodel` makes room for the ids below the largest one. A window reads the twelve rows of
the ids it covers, so a query reads outside of the table exactly when it looks up the
largest id. -/
namespace CommonTools.Segment
open CommonTools.Lib

/-- The ids that the windows of a query cover: the words at hand, `FIL` for an unknown one,
and `PAD` behind a short query. -/
inductive Used (m : Model) (queryseg : List Bytes) : Int → Prop
  | word {word : Bytes} {id : Int} : word ∈ queryseg.take padnum → m.idmap word = some id →
      Used m queryseg id
  | fil {word : Bytes} : word ∈ queryseg.take padnum → m.idmap word = none →
      Used m queryseg m.filid
  | pad : queryseg.length < padnum → Used m queryseg m.padid

section
variable {m : Model} {queryseg : List Bytes}

theorem used_token {p : Nat} (hp : p < padnum) : Used m queryseg (token m queryseg p) := by
  rw [token]
  cases hword : queryseg[p]? with
  | none => exact .pad (Nat.lt_of_le_of_lt (List.getElem?_eq_none_iff.mp hword) hp)
  | some word =>
    have hmem : word ∈ queryseg.take padnum :=
      List.mem_of_getElem? (by rw [List.getElem?_take_of_lt hp, hword])
    dsimp only
    cases hid : m.idmap word with
    | none => exact .fil hmem hid
    | some id => exact .word hmem hid

theorem exists_token {id : Int} (h : Used m queryseg id) :
    ∃ p, p < padnum ∧ p ≤ queryseg.length ∧ token m queryseg p = id := by
  have hplace : ∀ word ∈ queryseg.take padnum,
      ∃ p, p < padnum ∧ p ≤ queryseg.length ∧ queryseg[p]? = some word := by
    intro word hword
    obtain ⟨p, hp⟩ := List.mem_iff_getElem?.mp hword
    obtain ⟨hlt, -⟩ := List.getElem?_eq_some_iff.mp hp
    rw [List.length_take] at hlt
    rw [List.getElem?_take_of_lt (by omega)] at hp
    exact ⟨p, by omega, by omega, hp⟩
  cases h with
  | word hword hid =>
    obtain ⟨p, hp, hle, hget⟩ := hplace _ hword
    exact ⟨p, hp, hle, by simp [token, hget, hid]⟩
  | fil hword hid =>
    obtain ⟨p, hp, hle, hget⟩ := hplace _ hword
    exact ⟨p, hp, hle, by simp [token, hget, hid]⟩
  | pad hlen => exact ⟨queryseg.length, hlen, Nat.le_refl _, by simp [token]⟩

/-- A row of a word is inside of the table when its id is below `idmax`, and outside of it
otherwise. -/
theorem at?_row_isSome {idmax : Nat} (hsize : m.midsize = idmax * (3 + 4 + 5) * filnum)
    {convnum j f : Nat} (hrow : Row convnum j f) {id : Int} (hid : 0 ≤ id) :
    (m.at? ((j + convsum convnum) * filnum + f + id * layersize)).isSome ↔ id < idmax := by
  have hrows := hrow.rows.1
  have hf : f < 128 := hrow.filter
  have hin : (0 ≤ (j + convsum convnum : Int) * (filnum : Nat) + f + id * (layersize : Nat) ∧
      (j + convsum convnum : Int) * (filnum : Nat) + f + id * (layersize : Nat) < m.midsize) ↔
      id < idmax := by
    rw [hsize]
    simp only [filnum, layersize]
    omega
  rw [Model.at?]
  split
  · rename_i h
    simpa using hin.mp h
  · rename_i h
    simpa using fun hlt => h (hin.mpr hlt)

variable {idmax : Nat} (hsize : m.midsize = idmax * (3 + 4 + 5) * filnum)
  (hpos : ∀ p, 0 ≤ token m queryseg p)
include hsize hpos

theorem windowSum_isSome {convnum f i : Nat} (hw : convnum ∈ [3, 4, 5]) (hf : f < filnum)
    (hi : i + convnum ≤ padnum) :
    (windowSum m ((List.range padnum).map (token m queryseg)) convnum f i).isSome ↔
      ∀ j ∈ List.range convnum, token m queryseg (i + j) < idmax := by
  refine foldlM_isSome_iff 0 fun j hj res => ?_
  have hj := List.mem_range.mp hj
  rw [← at?_row_isSome hsize ⟨hw, hj, hf⟩ (hpos (i + j)), List.getElem?_map,
    List.getElem?_range (by omega)]
  simp [Option.isSome_iff_exists, Option.bind_eq_some_iff]

theorem relu_isSome {convnum f : Nat} (hw : convnum ∈ [3, 4, 5]) (hf : f < filnum) (len : Nat) :
    (relu m ((List.range padnum).map (token m queryseg)) len convnum f).isSome ↔
      ∀ i ∈ List.range (min (padnum - convnum + 1) (len + 1)),
        ∀ j ∈ List.range convnum, token m queryseg (i + j) < idmax := by
  have hwidth : convnum ≤ 5 := by
    simp only [List.mem_cons, List.not_mem_nil, or_false] at hw
    omega
  refine foldlM_isSome_iff _ fun i hi res => ?_
  have hi := List.mem_range.mp hi
  rw [← windowSum_isSome hsize hpos hw hf (by simp only [padnum] at hi ⊢; omega)]
  simp [Option.isSome_iff_exists, Option.bind_eq_some_iff]

theorem convolve_isSome (len : Nat) :
    (convolve m ((List.range padnum).map (token m queryseg)) len).isSome ↔
      ∀ convnum ∈ [3, 4, 5], ∀ i ∈ List.range (min (padnum - convnum + 1) (len + 1)),
        ∀ j ∈ List.range convnum, token m queryseg (i + j) < idmax := by
  refine foldlM_isSome_iff _ fun convnum hw convres => ?_
  have hfilters := @foldlM_isSome_iff _ _
    (fun convres f => (relu m ((List.range padnum).map (token m queryseg)) len convnum f).bind
      fun relu => some (Function.update convres ((convnum - 3) * filnum + f)
        (relu + m.arrays.cb convnum f)))
    (fun _ => ∀ i ∈ List.range (min (padnum - convnum + 1) (len + 1)),
      ∀ j ∈ List.range convnum, token m queryseg (i + j) < idmax) (List.range filnum) convres
    fun f hf convres => by
      rw [← relu_isSome hsize hpos hw (List.mem_range.mp hf)]
      simp [Option.isSome_iff_exists, Option.bind_eq_some_iff]
  refine hfilters.trans ⟨fun h => h 0 (by simp), fun h f _ => h⟩

/-- The rows that the windows read are the rows of the ids they cover. -/
theorem convolve_isSome_iff_used :
    (convolve m ((List.range padnum).map (token m queryseg)) queryseg.length).isSome ↔
      ∀ id, Used m queryseg id → id < idmax := by
  rw [convolve_isSome hsize hpos]
  constructor
  · intro h id hid
    obtain ⟨p, hp, hle, rfl⟩ := exists_token hid
    -- of the windows of width 3 one covers the place
    have hp : p < 12 := hp
    have hcover := h 3 (by simp) (min p 9) (List.mem_range.mpr (by simp only [padnum]; omega))
      (p - min p 9) (List.mem_range.mpr (by omega))
    rwa [Nat.add_sub_cancel' (Nat.min_le_left p 9)] at hcover
  · intro h convnum hw i hi j hj
    have hi := List.mem_range.mp hi
    have hj := List.mem_range.mp hj
    simp only [List.mem_cons, List.not_mem_nil, or_false] at hw
    exact h _ (used_token (by simp only [padnum] at hi ⊢; omega))

theorem validate_isSome_iff :
    (validate m queryseg).isSome ↔
      (known m queryseg : ℚ) / (queryseg.length + 1 / 1000) < 6 / 10 ∨
        ∀ id, Used m queryseg id → id < idmax := by
  rw [validate, lookUp, lookUp_upto, ← convolve_isSome_iff_used hsize hpos, known]
  dsimp only
  split
  · rename_i hfew
    exact ⟨fun _ => .inl hfew, fun _ => rfl⟩
  · rename_i henough
    rw [or_iff_right henough]
    simp [Option.isSome_iff_exists, Option.bind_eq_some_iff]

end

/-! ## Loaded models -/

section
variable {m : Model} {atof : Bytes → ℚ} {new : Arrays} {file : Bytes} {st : Loading}

/-- The ids and the size of a loaded model. -/
theorem load_eq (hst : loadLines atof new file = some st)
    (hload : loadmodel atof new (some file) = some (0, some m)) :
    m.idmap = st.idmap ∧ st.idmap (ascii "<FIL/>") = some m.filid ∧
      st.idmap (ascii "<PAD/>") = some m.padid ∧
      m.midsize = (st.idmax * (3 + 4 + 5) * filnum).toNat := by
  obtain ⟨filid, padid, hfil, hpad, rfl⟩ := loadmodel_eq hst hload
  exact ⟨rfl, hfil, hpad, rfl⟩

theorem token_nonneg (hst : loadLines atof new file = some st)
    (hload : loadmodel atof new (some file) = some (0, some m)) (queryseg : List Bytes) (p : Nat) :
    0 ≤ token m queryseg p := by
  have hpos : IdsPos st := loadLines_idsPos (idsPos_init new) hst
  obtain ⟨hmap, hfil, hpad, -⟩ := load_eq hst hload
  rw [token]
  cases queryseg[p]? with
  | none => exact hpos _ _ hpad
  | some word =>
    dsimp only
    rw [hmap]
    cases hid : st.idmap word with
    | none => exact hpos _ _ hfil
    | some id => exact hpos _ _ hid

/-- **A query stays inside of the table exactly when too few of its words are known, or when
no id that it looks up is the largest one.** -/
theorem validate_inside_iff (hst : loadLines atof new file = some st)
    (hload : loadmodel atof new (some file) = some (0, some m)) (queryseg : List Bytes) :
    (validate m queryseg).isSome ↔
      (known m queryseg : ℚ) / (queryseg.length + 1 / 1000) < 6 / 10 ∨
        ∀ id, Used m queryseg id → id < st.idmax := by
  have hsize : m.midsize = st.idmax.toNat * (3 + 4 + 5) * filnum := by
    rw [(load_eq hst hload).2.2.2]
    simp only [filnum]
    omega
  have hpos := token_nonneg hst hload queryseg
  rw [validate_isSome_iff hsize hpos]
  refine or_congr_right ⟨fun h id hid => ?_, fun h id hid => ?_⟩
  · have hlt := h id hid
    have hnat : 0 ≤ id := by
      obtain ⟨p, -, -, rfl⟩ := exists_token hid
      exact hpos p
    omega
  · have hlt := h id hid
    omega

end

theorem validate_inside_small :
    ∃ st m, loadLines (fun _ => 1) noArrays smallFile = some st ∧
      loadmodel (fun _ => 1) noArrays (some smallFile) = some (0, some m) ∧
      ((validate m [[97]]).isSome ↔
        (known m [[97]] : ℚ) / (([[97]] : List Bytes).length + 1 / 1000) < 6 / 10 ∨
          ∀ id, Used m [[97]] id → id < st.idmax) := by
  obtain ⟨st, m, hst, hload, -⟩ := smallFile_loads
  exact ⟨st, m, hst, hload, validate_inside_iff hst hload [[97]]⟩

/-- The word `b` has the largest id, and a query of this word reads behind the table. -/
theorem validate_outside_small :
    ∃ m, loadmodel (fun _ => 1) noArrays (some smallFile) = some (0, some m) ∧
      validate m [[98]] = none := by
  obtain ⟨st, m, hst, hload, hmap, hmfil, hmpad, -, hword, hmax⟩ := smallFile_loads
  refine ⟨m, hload, ?_⟩
  have hsize : m.midsize = 3 * (3 + 4 + 5) * filnum := by
    rw [(load_eq hst hload).2.2.2, hmax]
    rfl
  have hknown : known m [[98]] = 1 := by
    rw [known, hmap]
    simp [hword]
  have hused : Used m [[98]] 3 := .word (by simp) (hmap ▸ hword)
  rw [← Option.not_isSome_iff_eq_none, validate_isSome_iff hsize (token_nonneg hst hload [[98]])]
  intro h
  rcases h with hfew | hids
  · rw [hknown] at hfew
    norm_num at hfew
  · simpa using hids 3 hused

end CommonTools.Segment
