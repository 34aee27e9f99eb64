import CommonTools.Index.SevenColumnSound

/-! # The index files with their double array

With the array that is really built, a query finds what has been written for it. -/
namespace CommonTools.Index.IndexDa
open CommonTools.Lib CommonTools.DartsClone

/-! ## The index of extends -/

/-- **The answer to a query, down to the double array.** The array is built without an exception
and comes back from the file; every search in it is defined, and a query finds the joined text of
its entries. -/
theorem daSearch_cloneDarts (sort : List ST → List ST) (junk : Nat → Nat → UInt8)
    (vect : List ST) (hperm : (sort vect).Perm vect)
    (hsorted : (sort vect).Pairwise fun a b => comp b a = false)
    (hwf : ∀ v ∈ vect, WellFormed v) (hkeys : keyLength (vect.map ST.query) + 2 < 2 ^ 21)
    (hsize : (outputLoop (sort vect) .init).char_vect_extend.length < 2 ^ 31) :
    (outputIndexFile cloneDarts sort vect).1 = 0 ∧
      ∃ index, loadIndex junk (outputIndexFile cloneDarts sort vect).2 = some index ∧
        DartsClone.build (daKeys (outputLoop (sort vect) .init).dic_map) = .ok index.DaSearch ∧
        (∀ q, (DartsClone.exactMatchSearch index.DaSearch q).isSome) ∧
        ∀ q index_text, daSearch cloneDarts index q index_text =
          some (if ∃ v ∈ vect, v.query = cstr q then
            Function.update index_text daName (some (joined (sort vect) (cstr q)))
          else index_text) := by
  have hwf' : ∀ v ∈ sort vect, WellFormed v := fun v hv => hwf v (hperm.mem_iff.mp hv)
  have hclosed := outputLoop_spec hwf' hsorted
  rw [← keyLength_perm (hperm.map ST.query)] at hkeys
  obtain ⟨hbuild, hanswers, hexact⟩ := hclosed.cloneDarts hwf' hkeys
  obtain ⟨post, hout⟩ := outputIndexFile_file hexact.units_pos
  rw [hout]
  refine ⟨rfl, _, loadIndex_written junk hexact.units_pos hexact.units_lt (by omega) post, hbuild,
    fun q => ?_, fun q index_text => ?_⟩
  · rw [hanswers.search q]
    rfl
  · split
    · rename_i hin
      obtain ⟨v, hv, hq⟩ := hin
      exact hclosed.search_some hwf' hexact hsize (hperm.mem_iff.mpr hv) hq index_text
    · rename_i hout
      exact hclosed.search_none hwf' hexact
        (fun v hv hq => hout ⟨v, hperm.mem_iff.mp hv, hq⟩) _ index_text

theorem daSearch_cloneDarts_three :
    ∃ index, loadIndex (fun _ _ => 0) (outputIndexFile cloneDarts sortST threeEntries).2 =
        some index ∧
      daSearch cloneDarts index [98] (fun _ => none) =
        some (Function.update (fun _ => none) daName (some [121, 124, 124, 124, 122])) := by
  obtain ⟨-, index, hload, -, -, hanswer⟩ := daSearch_cloneDarts sortST (fun _ _ => 0)
    threeEntries (by decide +kernel) (by decide +kernel) (by decide) (by decide)
    (by decide +kernel)
  refine ⟨index, hload, ?_⟩
  rw [hanswer [98], if_pos (by decide)]
  rfl

end CommonTools.Index.IndexDa

/-! ## The index of seven columns -/

namespace CommonTools.Index.SevenColumn
open CommonTools.Lib CommonTools.DartsClone CommonTools.Index.IndexDa

/-- **The seven columns, down to the double array.** The value that is found for a query is the
place of its texts in every column, and another query finds -1. -/
theorem loadIndex_cloneDarts (sort : List WhiteBlackListTmp → List WhiteBlackListTmp)
    (junk : Nat → Nat → UInt8) (vect : List WhiteBlackListTmp) (hne : vect ≠ [])
    (hperm : (sort vect).Perm vect)
    (hsorted : (sort vect).Pairwise fun a b => comp2 b a = false)
    (hwf : ∀ v ∈ vect, WellFormed v) (hfree : ∀ v ∈ vect, NulFree v.query)
    (hkeys : keyLength (vect.map WhiteBlackListTmp.query) + 2 < 2 ^ 21)
    (hsize : ∀ c, (columnText c vect).length < 2 ^ 31) :
    (outputIndexFile cloneDarts sort vect).1 = 0 ∧
      ∃ index, loadIndex junk (outputIndexFile cloneDarts sort vect).2 = some index ∧
        DartsClone.build (daKeys (outputLoop (sort vect)).da_key_map) = .ok index.da_ ∧
        (∀ v ∈ vect, ∃ num : Nat,
          DartsClone.exactMatchSearch index.da_ v.query = some (num : Int) ∧
          index.buf_querylen[num]? = some (BitVec.ofNat 32 v.query.length) ∧
          ∀ c, ∃ e, (index.begin_end c)[num]? = some e ∧
            slice (index.buf c) e.span = queryText c (sort vect) v.query) ∧
        ∀ q, (∀ v ∈ vect, v.query ≠ cstr q) →
          DartsClone.exactMatchSearch index.da_ q = some (-1) := by
  have hmem : ∀ v, v ∈ sort vect ↔ v ∈ vect := fun v => hperm.mem_iff
  have hwf' : ∀ v ∈ sort vect, WellFormed v := fun v hv => hwf v ((hmem v).mp hv)
  have hfree' : ∀ v ∈ sort vect, NulFree v.query := fun v hv => hfree v ((hmem v).mp hv)
  have hne' : sort vect ≠ [] := fun he => hne (List.perm_nil.mp (he ▸ hperm).symm)
  have hsize' : ∀ c, (columnText c (sort vect)).length < 2 ^ 31 := fun c => by
    rw [columnText_length_perm hperm]
    exact hsize c
  have hbuf : ∀ c, (columnText c (sort vect)).length < 2 ^ 32 := fun c =>
    Nat.lt_trans (hsize' c) (by decide)
  obtain ⟨qs, h⟩ := outputLoop_closed hne' (fun v hv => (hwf' v hv).1) hsorted
  have hqs : qs.length < 2 ^ 31 := Nat.lt_of_le_of_lt (h.length_le hwf' .vr) (hsize' .vr)
  have hcount : ∀ c, ((outputLoop (sort vect)).column c).begin_end.length < 2 ^ 32 := fun c => by
    rw [h.begin_end c, List.length_map, spans_length, List.length_map]
    omega
  have hnul := h.nulFree hfree'
  rw [← keyLength_perm (hperm.map WhiteBlackListTmp.query)] at hkeys
  obtain ⟨hbuild, hanswers, hexact⟩ := h.cloneDarts hfree' hkeys
  have hsearch : ∀ q, DartsClone.exactMatchSearch
      (cloneDarts.build (daKeys (outputLoop (sort vect)).da_key_map)) q =
        some (((daKeys (outputLoop (sort vect)).da_key_map).lookup (cstr q)).getD (-1)) := fun q => by
    rw [hanswers.search q,
      answer_eq_lookup (List.forall_mem_map.mp (daKeys_nulFree hnul)) daKeys_values]
  obtain ⟨post, hout⟩ := outputIndexFile_file hexact.units_pos
  rw [hout]
  refine ⟨rfl, _, loadIndex_written junk hexact.units_pos hexact.units_lt hcount post, hbuild,
    fun v hv => ?_, fun q hq => ?_⟩
  · obtain ⟨i, hi⟩ := List.mem_iff_getElem?.mp ((h.mem v.query).mpr ⟨v, (hmem v).mpr hv, rfl⟩)
    have hlt : i < qs.length := (List.getElem?_eq_some_iff.mp hi).1
    have hint : (BitVec.ofNat 32 i).toInt = i := by
      rw [BitVec.toInt_ofNat']
      exact Int.bmod_eq_of_le (by omega) (by omega)
    refine ⟨i, ?_, ?_, fun c => ?_⟩
    · change DartsClone.exactMatchSearch
        (cloneDarts.build (daKeys (outputLoop (sort vect)).da_key_map)) v.query = _
      rw [hsearch, cstr_eq_self (hfree v hv), daKeys_lookup hnul (h.numbered.number i _ hi), hint]
      rfl
    · have hlen : qs.length % 2 ^ 32 = qs.length := Nat.mod_eq_of_lt (by omega)
      rw [Building.index, h.numbered.querylen, List.length_map, hlen,
        List.take_of_length_le (by rw [List.length_map]), List.getElem?_map, hi]
      rfl
    · rw [h.index_buf (hbuf c)]
      exact h.slice_text hwf' (hbuf c) hi
  · have hnone : (daKeys (outputLoop (sort vect)).da_key_map).lookup (cstr q) = none := by
      refine lookup_eq_none_of_notMem ?_
      rw [daKeys_keys hnul]
      intro hkey
      obtain ⟨e, he, hqe⟩ := List.mem_map.mp hkey
      obtain ⟨v, hv, hvq⟩ := h.query_of_mem he
      exact hq v ((hmem v).mp hv) (hvq.trans hqe)
    change DartsClone.exactMatchSearch
      (cloneDarts.build (daKeys (outputLoop (sort vect)).da_key_map)) q = _
    rw [hsearch, hnone]
    rfl

theorem loadIndex_cloneDarts_three :
    ∃ index, loadIndex (fun _ _ => 0) (outputIndexFile cloneDarts sortTmp threeRecords).2 =
        some index ∧ DartsClone.exactMatchSearch index.da_ [99] = some (-1) := by
  obtain ⟨-, index, hload, -, -, hother⟩ := loadIndex_cloneDarts sortTmp (fun _ _ => 0) threeRecords
    (by decide) (by decide +kernel) (by decide +kernel) (by decide) (by decide) (by decide)
    (fun c => by cases c <;> decide)
  exact ⟨index, hload, hother [99] (by decide)⟩

end CommonTools.Index.SevenColumn
