import CommonTools.Index.DlgLogIndex

/-! # The intersection of posting lists is exact

`View` describes the list that an `InvResult` points to by the documents of
its postings. A cursor never passes a document that the driving list has still
to ask for (`Passed`), so the first question for a document decides. -/
namespace CommonTools.Index.DlgLogIndex
open CommonTools.Lib CommonIndex

variable {W : Type} {HASH_BASIC : Nat}

/-- The documents in the list behind `r` are `docs`. -/
structure View (ix : DlgIndex W HASH_BASIC) (r : InvResult) (docs : List Int) : Prop where
  inv_num : r.inv_num = docs.length
  read : ∀ (i : Nat) (h : i < docs.length),
    (invAt ix r.inv i).map InvType.docId = some docs[i]

/-- Non-decreasing in the document. -/
abbrev Rising (docs : List Int) : Prop := docs.Pairwise (· ≤ ·)

/-! ## `BinarySearch` -/

/-- The search behind `offset` finds a position of the document, or there is
none. -/
theorem binarySearch_spec {ix : DlgIndex W HASH_BASIC} {r : InvResult} {docs : List Int}
    (hv : View ix r docs) (hr : Rising docs) (doc_id : Int) (offset : Nat) :
    (∃ m : Nat, binarySearch ix doc_id r.inv offset r.inv_num = some (m : Int) ∧ offset ≤ m ∧
        ∃ h : m < docs.length, docs[m] = doc_id) ∨
      (binarySearch ix doc_id r.inv offset r.inv_num = some (-1) ∧
        ∀ (i : Nat) (h : i < docs.length), offset ≤ i → docs[i] ≠ doc_id) := by
  let at_ : Int → Int := fun i => (docs[i.toNat]?).getD 0
  have hat : ∀ i : Nat, (h : i < docs.length) → at_ i = docs[i] := fun i h => by simp [at_, h]
  have hmono : ∀ (i j : Nat) (hi : i < docs.length) (hj : j < docs.length), i ≤ j →
      docs[i] ≤ docs[j] := fun i j hi hj hij => by
    rcases Nat.eq_or_lt_of_le hij with rfl | hlt
    · exact Int.le_refl _
    · exact List.pairwise_iff_getElem.mp hr i j hi hj hlt
  have hfalls : Falls
      (fun mid => (invAt ix r.inv mid).map fun node => compare doc_id (InvType.docId node))
      (fun i => compare doc_id (at_ i)) offset (r.inv_num - 1) := by
    rw [hv.inv_num]
    refine ⟨fun i hi hj => ?_, fun i j hi hij hj hlt => ?_, fun i j hi hij hj hgt => ?_⟩
    · obtain ⟨k, rfl⟩ := Int.eq_ofNat_of_zero_le (by omega : 0 ≤ i)
      have hk : k < docs.length := by omega
      have hread := congrArg (Option.map (compare doc_id)) (hv.read k hk)
      rw [Option.map_map] at hread
      rw [hat k hk]
      exact hread
    · obtain ⟨k, rfl⟩ := Int.eq_ofNat_of_zero_le (by omega : 0 ≤ i)
      obtain ⟨l, rfl⟩ := Int.eq_ofNat_of_zero_le (by omega : 0 ≤ j)
      have hle := hmono k l (by omega) (by omega) (by omega)
      rw [hat k (by omega), compare_lt_iff_lt] at hlt
      rw [hat l (by omega), compare_lt_iff_lt]
      omega
    · obtain ⟨k, rfl⟩ := Int.eq_ofNat_of_zero_le (by omega : 0 ≤ i)
      obtain ⟨l, rfl⟩ := Int.eq_ofNat_of_zero_le (by omega : 0 ≤ j)
      have hle := hmono k l (by omega) (by omega) (by omega)
      rw [hat l (by omega), compare_gt_iff_gt] at hgt
      rw [hat k (by omega), compare_gt_iff_gt]
      omega
  rcases bisect_spec midpoint_offset (r.inv_num - 1 - offset + 1).toNat offset (r.inv_num - 1)
    (by omega) hfalls with ⟨m, hb, h1, h2, heq⟩ | ⟨hb, hno⟩
  · obtain ⟨k, rfl⟩ := Int.eq_ofNat_of_zero_le (by omega : 0 ≤ m)
    rw [hv.inv_num] at h2
    have hk : k < docs.length := by omega
    rw [hat k hk, compare_eq_iff_eq] at heq
    refine .inl ⟨k, ?_, by omega, hk, heq.symm⟩
    simp only [binarySearch, hb, Option.bind_eq_bind, Option.bind_some, Option.getD_some]
  · refine .inr ⟨?_, fun i hi hoff heq => ?_⟩
    · simp only [binarySearch, hb, Option.bind_eq_bind, Option.bind_some, Option.getD_none]
    · refine hno i (by omega) (by rw [hv.inv_num]; omega) ?_
      rw [hat i hi, heq, compare_eq_iff_eq]

/-! ## `SearchDoc` -/

/-- The cursor has passed no document above those the driving list asked
for. -/
def Passed (past docs : List Int) (begin : Int) : Prop :=
  ∃ b : Nat, begin = b ∧ ∀ (i : Nat) (h : i < docs.length), i < b → ∃ x ∈ past, docs[i] ≤ x

theorem Passed.cons {past docs : List Int} {begin : Int} (h : Passed past docs begin) (d : Int) :
    Passed (d :: past) docs begin := by
  obtain ⟨b, hb, hp⟩ := h
  refine ⟨b, hb, fun i hi hlt => ?_⟩
  obtain ⟨x, hx, hle⟩ := hp i hi hlt
  exact ⟨x, List.mem_cons_of_mem d hx, hle⟩

/-- A cursor behind a document just found. -/
theorem Passed.found {past docs : List Int} {m : Nat} {d : Int} (hr : Rising docs)
    (hm : m < docs.length) (hd : docs[m] = d) : Passed (d :: past) docs (m + 1) := by
  refine ⟨m + 1, by simp, fun i hi hlt => ⟨d, by simp, ?_⟩⟩
  rcases Nat.eq_or_lt_of_le (Nat.le_of_lt_succ hlt) with rfl | hlt
  · exact Int.le_of_eq hd
  · exact hd ▸ List.pairwise_iff_getElem.mp hr i m hi hm hlt

/-- All lists other than the driving one hold the document. -/
def InOthers (min_index i : Nat) (lists : List (List Int)) (d : Int) : Prop :=
  ∀ (k : Nat) (docs : List Int), lists[k]? = some docs → i + k ≠ min_index → d ∈ docs

theorem inOthers_cons {min_index i : Nat} {docs : List Int} {lists : List (List Int)} {d : Int} :
    InOthers min_index i (docs :: lists) d ↔
      (i ≠ min_index → d ∈ docs) ∧ InOthers min_index (i + 1) lists d := by
  constructor
  · intro h
    refine ⟨h 0 docs rfl, fun k docs' hk hne => h (k + 1) docs' hk ?_⟩
    omega
  · rintro ⟨h0, h⟩ k docs' hk hne
    cases k with
    | zero => cases hk; exact h0 hne
    | succ k => exact h k docs' hk (by omega)

/-- `SearchDoc` keeps the cursors behind what was asked for. It succeeds only
on a document that all other lists hold, and always if the document is new. -/
theorem searchDocFrom_spec {ix : DlgIndex W HASH_BASIC} (min_index : Nat) (d : Int)
    {past : List Int} :
    ∀ {i : Nat} {rs : List InvResult} {lists : List (List Int)} {begins : List Int},
      List.Forall₂ (View ix) rs lists → (∀ docs ∈ lists, Rising docs) →
      List.Forall₂ (Passed past) lists begins →
      ∃ ret begins', searchDocFrom true ix d min_index i rs begins = some (ret, begins') ∧
        List.Forall₂ (Passed (d :: past)) lists begins' ∧
        (0 ≤ ret → InOthers min_index i lists d) ∧
        ((∀ x ∈ past, x < d) → InOthers min_index i lists d → 0 ≤ ret)
  | i, [], [], [], .nil, _, .nil =>
    ⟨0, [], rfl, .nil, fun _ k docs hk => by simp at hk, fun _ _ => Int.le_refl 0⟩
  | i, r :: rs, docs :: lists, begin :: begins, .cons hv hvs, hr, .cons hp hps => by
    obtain ⟨ret, begins', hrest, hpast, hin, hnew⟩ := searchDocFrom_spec min_index d (i := i + 1)
      hvs (fun l hl => hr l (List.mem_cons_of_mem docs hl)) hps
    have hrise := hr docs List.mem_cons_self
    by_cases hi : i = min_index
    · refine ⟨ret, begin :: begins', ?_, .cons (hp.cons d) hpast, fun h => ?_, fun h1 h2 => ?_⟩
      · simp only [searchDocFrom, if_pos hi, hrest, Option.bind_eq_bind, Option.bind_some]
      · exact inOthers_cons.mpr ⟨fun hne => absurd hi hne, hin h⟩
      · exact hnew h1 (inOthers_cons.mp h2).2
    · obtain ⟨b, rfl, hb⟩ := hp
      rcases binarySearch_spec hv hrise d b with ⟨m, hs, hle, hm, hd⟩ | ⟨hs, hno⟩
      · have hpos : ¬ ((m : Int) < 0) := by omega
        refine ⟨ret, (m + 1) :: begins', ?_, .cons (.found hrise hm hd) hpast, fun h => ?_,
          fun h1 h2 => hnew h1 (inOthers_cons.mp h2).2⟩
        · simp only [searchDocFrom, if_neg hi, hs, hrest, Option.bind_eq_bind, Option.bind_some,
            hpos, false_and, if_false]
        · exact inOthers_cons.mpr ⟨fun _ => hd ▸ List.getElem_mem hm, hin h⟩
      · refine ⟨-1, b :: begins, ?_, .cons (Passed.cons ⟨b, rfl, hb⟩ d) ?_,
          fun h => absurd h (by decide), fun h1 h2 => ?_⟩
        · simp [searchDocFrom, hi, hs]
        · exact hps.imp fun _ _ h => h.cons d
        · -- a new document lies behind the cursor, where the search looked for it
          obtain ⟨k, hk, hkd⟩ := List.mem_iff_getElem.mp ((inOthers_cons.mp h2).1 hi)
          by_cases hkb : k < b
          · obtain ⟨x, hx, hle⟩ := hb k hk hkb
            exact absurd (h1 x hx) (by omega)
          · exact absurd hkd (hno k hk (by omega))

/-! ## `UnionInvResult` -/

/-- The state of the loop after the driving list has asked for `past`, the
last question first. -/
structure Round (min_index : Nat) (lists : List (List Int)) (past : List Int)
    (state : List Int × List Int) : Prop where
  cursors : List.Forall₂ (Passed past) lists state.1
  sublist : state.2.Sublist past.reverse
  mem : ∀ d, d ∈ state.2 ↔ d ∈ past ∧ InOthers min_index 0 lists d

theorem Round.step {ix : DlgIndex W HASH_BASIC} {min_index : Nat} {rs : List InvResult}
    {lists : List (List Int)} {past : List Int} {state : List Int × List Int}
    (h : Round min_index lists past state) (hvs : List.Forall₂ (View ix) rs lists)
    (hr : ∀ docs ∈ lists, Rising docs) {driving : Option Int} {i : Nat} {d : Int}
    (hd : (invAt ix driving i).map InvType.docId = some d) (hpast : ∀ x ∈ past, x ≤ d) :
    ∃ state', unionRound ix rs min_index driving state i = some state' ∧
      Round min_index lists (d :: past) state' := by
  obtain ⟨inv, hinv, rfl⟩ := Option.map_eq_some_iff.mp hd
  obtain ⟨ret, begins', hs, hcur, hin, hnew⟩ := searchDocFrom_spec min_index
    (InvType.docId inv) (i := 0) hvs hr h.cursors
  have hround : unionRound ix rs min_index driving state i = some (begins',
      if 0 ≤ ret then state.2 ++ [getDoc inv] else state.2) := by
    simp only [unionRound, searchDoc, hinv, hs, Option.bind_eq_bind, Option.bind_some]
  refine ⟨_, hround, hcur, ?_, fun x => ?_⟩
  · rw [List.reverse_cons]
    split
    · exact h.sublist.append (List.Sublist.refl _)
    · exact h.sublist.trans (List.sublist_append_left _ _)
  · have hsplit : (x ∈ if 0 ≤ ret then state.2 ++ [getDoc inv] else state.2) ↔
        x ∈ state.2 ∨ (0 ≤ ret ∧ x = InvType.docId inv) := by
      split
      · rename_i hret; simp [hret, getDoc]
      · rename_i hret; simp [hret]
    rw [hsplit, h.mem]
    constructor
    · rintro (⟨hx, ho⟩ | ⟨hret, rfl⟩)
      · exact ⟨List.mem_cons_of_mem _ hx, ho⟩
      · exact ⟨List.mem_cons_self, hin hret⟩
    · rintro ⟨hx, ho⟩
      by_cases hold : x ∈ past
      · exact .inl ⟨hold, ho⟩
      · have hxd : x = InvType.docId inv := (List.mem_cons.mp hx).resolve_right hold
        subst hxd
        -- the first question for this document
        refine .inr ⟨hnew (fun y hy => ?_) ho, rfl⟩
        have hle := hpast y hy
        rcases Int.lt_or_eq_of_le hle with hlt | heq
        · exact hlt
        · exact absurd (heq ▸ hy) hold

theorem Round.run {ix : DlgIndex W HASH_BASIC} (min_index : Nat) {rs : List InvResult}
    {lists : List (List Int)} {driving : InvResult} {docs : List Int}
    (hv : View ix driving docs) (hrise : Rising docs) (hvs : List.Forall₂ (View ix) rs lists)
    (hr : ∀ docs ∈ lists, Rising docs) :
    ∀ k ≤ docs.length, ∃ state,
      (List.range k).foldlM (unionRound ix rs min_index driving.inv) (rs.map fun _ => 0, []) =
        some state ∧
      Round min_index lists (docs.take k).reverse state
  | 0, _ => by
    refine ⟨_, rfl, ?_, by simp, by simp⟩
    refine List.forall₂_map_right_iff.mpr (hvs.flip.imp fun _ _ _ => ?_)
    exact ⟨0, rfl, fun i _ hlt => absurd hlt (Nat.not_lt_zero i)⟩
  | k + 1, hk => by
    obtain ⟨state, hrun, hround⟩ := Round.run min_index hv hrise hvs hr k (Nat.le_of_succ_le hk)
    have hpast : ∀ x ∈ (docs.take k).reverse, x ≤ docs[k] := fun x hx => by
      obtain ⟨i, hi, rfl⟩ := List.mem_take_iff_getElem.mp (List.mem_reverse.mp hx)
      exact List.pairwise_iff_getElem.mp hrise i k _ hk (by omega)
    obtain ⟨state', hstep, hround'⟩ := hround.step hvs hr (hv.read k hk) hpast
    refine ⟨state', ?_, ?_⟩
    · rw [List.range_succ, List.foldlM_append, hrun]
      simpa using hstep
    · rwa [List.take_succ_eq_append_getElem hk, List.reverse_append]

/-- `min_index` is the first list of least length. -/
structure FirstShortest (sizes : List Nat) (min_index size : Nat) : Prop where
  here : sizes[min_index]? = some size
  least : ∀ s ∈ sizes, size ≤ s
  first : ∀ j s, j < min_index → sizes[j]? = some s → size < s

theorem unionInvResult_spec {ix : DlgIndex W HASH_BASIC} {rs : List InvResult}
    {lists : List (List Int)} (num_info : InvNumInfo) (driving : List Int)
    (hvs : List.Forall₂ (View ix) rs lists) (hr : ∀ docs ∈ lists, Rising docs)
    (hd : lists[num_info.min_index]? = some driving)
    (hmin : num_info.min_inv_size = driving.length) :
    ∃ docs : List Int, unionInvResult ix rs num_info [] = some ((docs.length : Int), docs) ∧
      docs.Sublist driving ∧ ∀ d, d ∈ docs ↔ ∀ l ∈ lists, d ∈ l := by
  obtain ⟨hlt, hget⟩ := List.getElem?_eq_some_iff.mp hd
  have hmem : driving ∈ lists := hget ▸ List.getElem_mem hlt
  by_cases h0 : num_info.min_inv_size = 0
  · have hnil : driving = [] := List.length_eq_zero_iff.mp (by omega)
    refine ⟨[], by rw [unionInvResult, if_pos h0]; rfl, List.nil_sublist _, fun d => ?_⟩
    exact ⟨fun h => absurd h List.not_mem_nil, fun h => hnil ▸ h driving hmem⟩
  · obtain ⟨hlen, hall⟩ := List.forall₂_iff_get.mp hvs
    have hrlt : num_info.min_index < rs.length := hlen ▸ hlt
    have hv : View ix rs[num_info.min_index] driving := hget ▸ hall _ hrlt hlt
    obtain ⟨state, hrun, hround⟩ := Round.run num_info.min_index hv (hr driving hmem)
      hvs hr driving.length (Nat.le_refl _)
    rw [List.take_length] at hround
    refine ⟨state.2, ?_, by simpa using hround.sublist, fun d => ?_⟩
    · rw [unionInvResult, if_neg h0, List.getElem?_eq_getElem hrlt]
      simp only [hv.inv_num, Int.toNat_natCast, hrun, Option.bind_eq_bind, Option.bind_some]
    · rw [hround.mem, List.mem_reverse]
      constructor
      · rintro ⟨hdr, ho⟩ l hl
        obtain ⟨k, hk, rfl⟩ := List.mem_iff_getElem.mp hl
        by_cases hkm : 0 + k = num_info.min_index
        · rw [Nat.zero_add] at hkm
          subst hkm
          exact hget ▸ hdr
        · exact ho k _ (List.getElem?_eq_getElem hk) hkm
      · intro h
        exact ⟨h driving hmem, fun k docs hk _ => h docs (List.mem_of_getElem? hk)⟩

/-! ## `GetInvResults` -/

/-- `num_info` after lists of the given sizes. It stays as constructed while
every list has `INT_MAX` postings. -/
structure Noted (num_info : InvNumInfo) (sizes : List Nat) : Prop where
  least : ∀ s ∈ sizes, num_info.min_inv_size ≤ s
  bound : num_info.min_inv_size ≤ 2 ^ 31 - 1
  index : (num_info.min_index = 0 ∧ num_info.min_inv_size = 2 ^ 31 - 1) ∨
    ((sizes[num_info.min_index]?).map Nat.cast = some num_info.min_inv_size ∧
      ∀ j s, j < num_info.min_index → sizes[j]? = some s → num_info.min_inv_size < s)

theorem InvNumInfo.note_min (info : InvNumInfo) (index : Nat) (inv_num : Int) :
    ((info.note index inv_num).min_inv_size, (info.note index inv_num).min_index) =
      if inv_num < info.min_inv_size then (inv_num, index)
      else (info.min_inv_size, info.min_index) := by
  unfold InvNumInfo.note
  by_cases hmax : info.max_inv_size < inv_num <;> by_cases hmin : inv_num < info.min_inv_size <;>
    simp [hmax, hmin]

theorem Noted.note {info : InvNumInfo} {sizes : List Nat} (h : Noted info sizes) {s : Nat}
    (hs : s < 2 ^ 31) : Noted (info.note sizes.length s) (sizes ++ [s]) := by
  have hnote := InvNumInfo.note_min info sizes.length s
  by_cases hlt : (s : Int) < info.min_inv_size
  · rw [if_pos hlt] at hnote
    obtain ⟨hsize, hindex⟩ := Prod.mk.inj hnote
    refine ⟨fun t ht => ?_, by omega, .inr ⟨?_, fun j t hj ht => ?_⟩⟩
    · rcases List.mem_append.mp ht with ht | ht
      · have := h.least t ht; omega
      · rw [List.mem_singleton.mp ht, hsize]
    · simp [hindex, hsize]
    · rw [hindex] at hj
      rw [List.getElem?_append_left hj] at ht
      have := h.least t (List.mem_of_getElem? ht)
      omega
  · rw [if_neg hlt] at hnote
    obtain ⟨hsize, hindex⟩ := Prod.mk.inj hnote
    refine ⟨fun t ht => ?_, by rw [hsize]; exact h.bound, ?_⟩
    · rcases List.mem_append.mp ht with ht | ht
      · rw [hsize]; exact h.least t ht
      · rw [List.mem_singleton.mp ht, hsize]; omega
    · rw [hsize, hindex]
      refine h.index.imp id fun ⟨hhere, hfirst⟩ => ?_
      have hin : info.min_index < sizes.length := by
        by_contra hout
        rw [List.getElem?_eq_none (by omega)] at hhere
        cases hhere
      refine ⟨by rw [List.getElem?_append_left hin, hhere], fun j t hj ht => ?_⟩
      rw [List.getElem?_append_left (by omega)] at ht
      exact hfirst j t hj ht

/-- With at least one list, none longer than an `int` can count, the minimum is
taken at the first shortest list. -/
theorem Noted.firstShortest {info : InvNumInfo} {sizes : List Nat} (h : Noted info sizes)
    (hne : sizes ≠ []) (hs : ∀ s ∈ sizes, s < 2 ^ 31) :
    ∃ size : Nat, info.min_inv_size = size ∧ FirstShortest sizes info.min_index size := by
  rcases h.index with ⟨h0, hmax⟩ | ⟨hhere, hfirst⟩
  · obtain ⟨s, rest, rfl⟩ := List.exists_cons_of_ne_nil hne
    have hle := h.least s (by simp)
    have hlt := hs s (by simp)
    have hsize : info.min_inv_size = s := by omega
    refine ⟨s, hsize, by simp [h0], fun t ht => ?_, fun j t hj => ?_⟩
    · have := h.least t ht; omega
    · omega
  · obtain ⟨s, hget, hsize⟩ := Option.map_eq_some_iff.mp hhere
    refine ⟨s, hsize.symm, hget, fun t ht => ?_, fun j t hj ht => ?_⟩
    · have := h.least t ht; omega
    · have := hfirst j t hj ht; omega

section Query
variable [NeZero HASH_BASIC]

/-- The index keeps the posting list `invs` under the word `w`. -/
def Posted (ix : DlgIndex W HASH_BASIC) (w : Bytes) (invs : List DlgInvType) : Prop :=
  invs.length < 2 ^ 31 ∧
    ((ix.getInv w = some none ∧ invs = []) ∨
      ∃ inv_list : Int, ix.getInv w = some (some (inv_list, (invs.length : Int))) ∧
        ix.walk inv_list invs.length = some invs)

theorem invResult_view {ix : DlgIndex W HASH_BASIC} {w : Bytes} {invs : List DlgInvType}
    (h : Posted ix w invs) :
    ∃ r, invResult ix w = some r ∧ View ix r (invs.map InvType.docId) := by
  rcases h.2 with ⟨hget, rfl⟩ | ⟨inv_list, hget, hwalk⟩
  · refine ⟨⟨none, 0⟩, by simp only [invResult, hget, Option.bind_eq_bind, Option.bind_some], ?_⟩
    exact ⟨rfl, fun i hi => absurd hi (Nat.not_lt_zero i)⟩
  · refine ⟨⟨some inv_list, invs.length⟩,
      by simp only [invResult, hget, Option.bind_eq_bind, Option.bind_some], by simp, ?_⟩
    intro i hi
    rw [List.length_map] at hi
    obtain ⟨_, hall⟩ := List.forall₂_iff_get.mp (forall₂_of_mapM hwalk)
    have hread := hall i (by simpa using hi) hi
    simp only [List.get_eq_getElem, List.getElem_range] at hread
    simp only [invAt, Option.bind_eq_bind, Option.bind_some, hread, Option.map_some,
      List.getElem_map]

theorem getInvResults_spec {ix : DlgIndex W HASH_BASIC} {lists : Bytes → List DlgInvType} :
    ∀ {parts : List Bytes} {info : InvNumInfo} (rs : List InvResult) {sizes : List Nat},
      (∀ w ∈ parts, Posted ix w (lists w)) → rs.length = sizes.length → Noted info sizes →
      ∃ info' rs', getInvResults ix parts info rs = some (info', rs ++ rs') ∧
        List.Forall₂ (View ix) rs' (parts.map fun w => (lists w).map InvType.docId) ∧
        Noted info' (sizes ++ parts.map fun w => (lists w).length) := by
  intro parts
  induction parts with
  | nil =>
    intro info rs sizes _ _ hn
    exact ⟨info, [], by simp [getInvResults], .nil, by simpa using hn⟩
  | cons w parts ih =>
    intro info rs sizes hp hlen hn
    have hw := hp w List.mem_cons_self
    obtain ⟨r, hr, hv⟩ := invResult_view hw
    have hnum : r.inv_num = (lists w).length := by rw [hv.inv_num, List.length_map]
    have hn' : Noted (info.note rs.length r.inv_num) (sizes ++ [(lists w).length]) := by
      rw [hnum, hlen]; exact hn.note hw.1
    obtain ⟨info', rs', hrest, hvs, hn''⟩ := ih (rs ++ [r])
      (fun v hv => hp v (List.mem_cons_of_mem w hv)) (by simp [hlen]) hn'
    refine ⟨info', r :: rs', ?_, .cons hv hvs, by simpa using hn''⟩
    simp only [getInvResults, hr, hrest, Option.bind_eq_bind, Option.bind_some,
      List.append_assoc, List.singleton_append]

/-! ## Lists that `add` built -/

/-- The postings of a word never decrease in the document. -/
theorem postings_rising (w : Bytes) :
    ∀ (id : Nat) (adds : List (AddCall (DlgDocType W) DlgInvType)), id + adds.length < 2 ^ 31 →
      (∀ inv ∈ postings id adds w, (id : Int) ≤ InvType.docId inv) ∧
        Rising ((postings id adds w).map InvType.docId)
  | id, [], _ => by simp [postings]
  | id, c :: rest, hlt => by
    rw [List.length_cons] at hlt
    obtain ⟨hge, hrise⟩ := postings_rising w (id + 1) rest (by omega)
    have hid : ∀ inv ∈ c.postings id w, InvType.docId inv = id := fun inv h =>
      AddCall.docId_of_mem h (by omega)
    refine ⟨fun inv h => ?_, ?_⟩
    · rcases List.mem_append.mp h with h | h
      · exact Int.le_of_eq (hid inv h).symm
      · have := hge inv h; omega
    · rw [postings, List.map_append, Rising, List.pairwise_append]
      refine ⟨?_, hrise, fun a ha b hb => ?_⟩
      · refine List.pairwise_of_forall_mem_list fun a ha b hb => ?_
        obtain ⟨x, hx, rfl⟩ := List.mem_map.mp ha
        obtain ⟨y, hy, rfl⟩ := List.mem_map.mp hb
        rw [hid x hx, hid y hy]
      · obtain ⟨x, hx, rfl⟩ := List.mem_map.mp ha
        obtain ⟨y, hy, rfl⟩ := List.mem_map.mp hb
        have := hge y hy
        rw [hid x hx]
        omega

theorem posted_of_answers [Pod W] {ix : DlgIndex W HASH_BASIC}
    {adds : List (AddCall (DlgDocType W) DlgInvType)} (h : ix.Answers adds) (hs : Sizes adds)
    {w : Bytes} (hw : NulFree w) : Posted ix w (postings 0 adds w) := by
  have hlen : (postings 0 adds w).length < 2 ^ 31 := by
    rw [postings_length]
    refine Nat.lt_of_le_of_lt List.count_le_length ?_
    rw [keysOf, List.length_flatMap]
    exact hs.invs
  refine ⟨hlen, ?_⟩
  by_cases hin : ∃ c ∈ adds, w ∈ c.key_vect
  · obtain ⟨inv_list, num_inv, hget, hwalk⟩ := h.found w hw hin
    have hnum : num_inv.toNat = (postings 0 adds w).length := by
      simpa using (forall₂_of_mapM hwalk).length_eq
    have hpos : 0 < (postings 0 adds w).length := by
      rw [List.length_pos_iff, ne_eq, postings_eq_nil]
      obtain ⟨c, hc, hwc⟩ := hin
      exact fun hno => hno c hc hwc
    have hint : num_inv = (postings 0 adds w).length := by omega
    exact .inr ⟨inv_list, hint ▸ hget, hint ▸ hwalk⟩
  · have hno : ∀ c ∈ adds, w ∉ c.key_vect := fun c hc hwc => hin ⟨c, hc, hwc⟩
    exact .inl ⟨(h.missing w hw).mpr hno, (postings_eq_nil w 0 adds).mpr hno⟩

/-! ## The result -/

/-- **The intersection is exact.** For any posting lists that do not decrease
in the document, a document is found when every term has it, in the order of
the first shortest list. -/
theorem unionInvResult_exact (ix : DlgIndex W hashBasic) (lists : Bytes → List DlgInvType)
    (parts : List Bytes) (hlen : 2 ≤ parts.length)
    (hposted : ∀ w ∈ parts, Posted ix w (lists w))
    (hrising : ∀ w ∈ parts, ((lists w).map InvType.docId).Pairwise (· ≤ ·)) :
    ∃ num_info inv_results docs, getInvResults ix parts .init [] = some (num_info, inv_results) ∧
      unionInvResult ix inv_results num_info [] = some ((docs.length : Int), docs) ∧
      (∀ doc, doc ∈ docs ↔ ∀ w ∈ parts, ∃ inv ∈ lists w, InvType.docId inv = doc) ∧
      ∃ k w, parts[k]? = some w ∧
        FirstShortest (parts.map fun v => (lists v).length) k (lists w).length ∧
        docs.Sublist ((lists w).map getDoc) := by
  have hinit : Noted .init [] := ⟨by simp, by decide, .inl ⟨rfl, rfl⟩⟩
  obtain ⟨info, rs, hget, hvs, hnoted⟩ := getInvResults_spec [] hposted rfl hinit
  rw [List.nil_append] at hget hnoted
  obtain ⟨size, hsize, hfirst⟩ := hnoted.firstShortest
    (by intro hnil; rw [List.map_eq_nil_iff.mp hnil] at hlen; simp at hlen)
    (by simpa using fun w hw => (hposted w hw).1)
  obtain ⟨w, hw, hwlen⟩ := Option.map_eq_some_iff.mp
    ((List.getElem?_map).symm.trans hfirst.here)
  obtain ⟨docs, hunion, hsub, hmem⟩ := unionInvResult_spec info
    ((lists w).map InvType.docId) hvs (by simpa using hrising)
    (by rw [List.getElem?_map, hw]; rfl) (by rw [hsize, List.length_map, hwlen])
  refine ⟨info, rs, docs, hget, hunion, fun doc => ?_, info.min_index, w, hw, ?_, hsub⟩
  · rw [hmem]; simp
  · rw [hwlen]; exact hfirst

/-- The query `b b` on the index of `twoCalls`. -/
theorem unionInvResult_exact_twoCalls :
    ∃ (ix : DlgIndex (BitVec 32) hashBasic) (num_info : InvNumInfo) (inv_results : List InvResult)
      (docs : List Int), ix.Answers twoCalls ∧
      getInvResults ix [[98], [98]] .init [] = some (num_info, inv_results) ∧
      unionInvResult ix inv_results num_info [] = some ((docs.length : Int), docs) ∧
      ∀ doc, doc ∈ docs ↔ doc = 0 ∨ doc = 1 := by
  have hs : Sizes twoCalls := ⟨by decide, by decide, by decide⟩
  obtain ⟨_, _, _, -, -, hload⟩ := addAll_save_load DlgKeyType (by decide : hashBasic < 2 ^ 32) hs
  obtain ⟨loaded, -, hl⟩ := hload (fun _ _ => 0) empty
  have ha : loaded.Answers twoCalls := hl.answers hs
  obtain ⟨num_info, inv_results, docs, hget, hunion, hmem, _⟩ := unionInvResult_exact loaded
    (postings 0 twoCalls) [[98], [98]] (by decide)
    (fun w hw => posted_of_answers ha hs (by
      have : w = [98] := by simpa using hw
      subst this; decide))
    (fun w _ => (postings_rising w 0 twoCalls (by decide)).2)
  refine ⟨loaded, num_info, inv_results, docs, ha, hget, hunion, fun doc => ?_⟩
  rw [hmem]
  have hdocs : (postings 0 twoCalls [98]).map InvType.docId = [0, 1] := by decide
  have hex : (∃ inv ∈ postings 0 twoCalls [98], InvType.docId inv = doc) ↔
      doc ∈ (postings 0 twoCalls [98]).map InvType.docId := by simp
  simp only [List.mem_cons, List.not_mem_nil, or_false, or_self, forall_eq, hex, hdocs]

end Query

end CommonTools.Index.DlgLogIndex
