import CommonTools.Gary.GaryString
import CommonTools.Lib.RunLength
import CommonTools.Similarity.EditMetric

/-! # Candidates ranked by their edit distance

`EditSort` puts the candidates of one distance behind one another in a string,
each with `###` at its end, and callers take the string apart with `StringSplit`. -/
namespace CommonTools.Similarity
open CommonTools.Lib CommonTools.Gary

def hashes : Bytes := List.replicate 3 0x23

section
variable (Segment_ : Bytes → List Bytes)

/-- `EditDist::Calculate`, with what the new table of `edit` holds. -/
def calculate (new : Table) (str1 str2 : Bytes) : Int :=
  let vec1 := Segment_ str1
  if vec1.length < 1 then 0
  else
    let vec2 := Segment_ str2
    if vec2.length < 1 then 0 else edit new vec1 vec2

def sortByValue (v1 v2 : Int) : Bool := decide (v1 < v2)

/-- What the loop of `EditSort` writes. -/
structure Ranking where
  cadidate_sort : Int → Option Bytes
  sortED : List Int
  uniq_cadidate : Bytes → Option Int

def rank (new : Table) (str1 : Bytes) (r : Ranking) (cadidate : Bytes) : Ranking :=
  let edis := calculate Segment_ new str1 cadidate
  let uniq_cadidate := Function.update r.uniq_cadidate cadidate
    (some ((r.uniq_cadidate cadidate).getD 0 + 1))
  match r.cadidate_sort edis with
  | some packed =>
    match r.uniq_cadidate cadidate with
    | none =>
      ⟨Function.update r.cadidate_sort edis (some (packed ++ (cadidate ++ hashes))), r.sortED,
        uniq_cadidate⟩
    | some _ => r
  | none =>
    ⟨Function.update r.cadidate_sort edis (some (cadidate ++ hashes)), r.sortED ++ [edis],
      uniq_cadidate⟩

/-- The loop of `EditSort`; `new` is what the tables of its rounds hold. -/
def rankAll (new : Nat → Table) (str1 : Bytes) (cadidate : List Bytes)
    (cadidate_sort : Int → Option Bytes) (sortED : List Int) : Ranking :=
  cadidate.zipIdx.foldl (fun r c => rank Segment_ (new c.2) str1 r c.1)
    ⟨cadidate_sort, sortED, fun _ => none⟩

/-- `EditDist::EditSort`: what `cadidate_sort` and `sortED` hold afterwards. -/
def editSort (std : StdSort Int) (new : Nat → Table) (str1 : Bytes) (cadidate : List Bytes)
    (cadidate_sort : Int → Option Bytes) (sortED : List Int) : (Int → Option Bytes) × List Int :=
  let r := rankAll Segment_ new str1 cadidate cadidate_sort sortED
  (r.cadidate_sort, std.sort sortByValue r.sortED)

end

/-! ## The distance -/

section
variable {Segment_ : Bytes → List Bytes}

theorem calculate_new (new new' : Table) (str1 str2 : Bytes) :
    calculate Segment_ new str1 str2 = calculate Segment_ new' str1 str2 := by
  unfold calculate
  simp only [edit_new new new']

/-- A text without words has the distance 0 to every text. -/
theorem calculate_of_nil {new : Table} {str1 str2 : Bytes}
    (h : Segment_ str1 = [] ∨ Segment_ str2 = []) : calculate Segment_ new str1 str2 = 0 := by
  unfold calculate
  rcases h with h | h
  · rw [h]
    rfl
  · rw [h]
    exact ite_self 0

theorem calculate_eq_zero_iff {new : Table} {str1 str2 : Bytes} (h1 : Segment_ str1 ≠ [])
    (h2 : Segment_ str2 ≠ []) :
    calculate Segment_ new str1 str2 = 0 ↔ Segment_ str1 = Segment_ str2 := by
  have hlen1 := List.length_pos_iff.mpr h1
  have hlen2 := List.length_pos_iff.mpr h2
  obtain ⟨n, hdist, hn⟩ := edit_isEditDist new (Segment_ str1) (Segment_ str2)
  unfold calculate
  simp only [if_neg (Nat.not_lt.mpr hlen1), if_neg (Nat.not_lt.mpr hlen2)]
  rw [hn, Int.natCast_eq_zero]
  exact hdist.eq_zero_iff Nat.two_pos

/-- What makes the distance 0 mean equal words. -/
theorem calculate_zero_sound_iff {new : Table} {str1 str2 : Bytes} :
    (calculate Segment_ new str1 str2 = 0 → Segment_ str1 = Segment_ str2) ↔
      (Segment_ str1 = [] ↔ Segment_ str2 = []) := by
  constructor
  · intro h
    constructor
    · intro h1
      rw [← h (calculate_of_nil (.inl h1)), h1]
    · intro h2
      rw [h (calculate_of_nil (.inr h2)), h2]
  · intro h hzero
    by_cases h1 : Segment_ str1 = []
    · rw [h1, h.mp h1]
    · exact (calculate_eq_zero_iff h1 (mt h.mpr h1)).mp hzero

section
variable {new : Table} {str1 : Bytes} {r : Ranking} {c packed : Bytes}

theorem rank_first (h : r.cadidate_sort (calculate Segment_ new str1 c) = none) :
    rank Segment_ new str1 r c =
      ⟨Function.update r.cadidate_sort (calculate Segment_ new str1 c) (some (c ++ hashes)),
        r.sortED ++ [calculate Segment_ new str1 c],
        Function.update r.uniq_cadidate c (some ((r.uniq_cadidate c).getD 0 + 1))⟩ := by
  unfold rank
  simp only [h]

/-- A new candidate at a distance that has one. -/
theorem rank_next (h : r.cadidate_sort (calculate Segment_ new str1 c) = some packed)
    (hnew : r.uniq_cadidate c = none) :
    rank Segment_ new str1 r c =
      ⟨Function.update r.cadidate_sort (calculate Segment_ new str1 c)
          (some (packed ++ (c ++ hashes))), r.sortED,
        Function.update r.uniq_cadidate c (some ((r.uniq_cadidate c).getD 0 + 1))⟩ := by
  unfold rank
  simp only [h, hnew]

theorem rank_seen {n : Int} (h : r.cadidate_sort (calculate Segment_ new str1 c) = some packed)
    (hseen : r.uniq_cadidate c = some n) : rank Segment_ new str1 r c = r := by
  unfold rank
  simp only [h, hseen]

end

theorem rank_new (new new' : Table) (str1 : Bytes) (r : Ranking) (c : Bytes) :
    rank Segment_ new str1 r c = rank Segment_ new' str1 r c := by
  unfold rank
  rw [calculate_new new new']

theorem rankAll_eq_foldl (new : Nat → Table) (new' : Table) (str1 : Bytes) (cadidate : List Bytes)
    (cadidate_sort : Int → Option Bytes) (sortED : List Int) :
    rankAll Segment_ new str1 cadidate cadidate_sort sortED =
      cadidate.foldl (rank Segment_ new' str1) ⟨cadidate_sort, sortED, fun _ => none⟩ := by
  have hround : (fun (r : Ranking) (c : Bytes × Nat) => rank Segment_ (new c.2) str1 r c.1) =
      fun r c => rank Segment_ new' str1 r c.1 := by
    funext r c
    exact rank_new _ _ _ _ _
  rw [rankAll, hround]
  conv_rhs => rw [← List.zipIdx_map_fst 0 cadidate, List.foldl_map]

end

/-! ## The groups -/

/-- The candidates at the distance `d`, each once, by their first occurrences. -/
def groupAt (dist : Bytes → Int) (d : Int) (cadidate : List Bytes) : List Bytes :=
  (cadidate.filter fun c => dist c = d).eraseDups

section
variable {dist : Bytes → Int} {d : Int} {cadidate : List Bytes} {c : Bytes}

theorem mem_groupAt : c ∈ groupAt dist d cadidate ↔ c ∈ cadidate ∧ dist c = d := by
  rw [groupAt, List.mem_eraseDups, List.mem_filter, decide_eq_true_iff]

theorem groupAt_concat_of_ne (h : dist c ≠ d) :
    groupAt dist d (cadidate ++ [c]) = groupAt dist d cadidate := by
  rw [groupAt, List.filter_append, List.filter_singleton, decide_eq_false h, cond_false,
    List.append_nil, ← groupAt]

theorem groupAt_concat_of_mem (h : c ∈ cadidate) :
    groupAt dist d (cadidate ++ [c]) = groupAt dist d cadidate := by
  by_cases hd : dist c = d
  · have hin : c ∈ cadidate.filter fun c => dist c = d :=
      List.mem_filter.mpr ⟨h, decide_eq_true hd⟩
    have hnone : [c].removeAll (cadidate.filter fun c => dist c = d) = [] := by
      rw [List.removeAll, List.filter_eq_nil_iff]
      simpa using hin
    rw [groupAt, List.filter_append, List.filter_singleton, decide_eq_true hd, cond_true,
      List.eraseDups_append, hnone, List.eraseDups_nil, List.append_nil, ← groupAt]
  · exact groupAt_concat_of_ne hd

theorem groupAt_concat_new (hd : dist c = d) (h : c ∉ cadidate) :
    groupAt dist d (cadidate ++ [c]) = groupAt dist d cadidate ++ [c] := by
  have hall : [c].removeAll (cadidate.filter fun c => dist c = d) = [c] := by
    rw [List.removeAll, List.filter_eq_self]
    simpa using Or.inl h
  rw [groupAt, List.filter_append, List.filter_singleton, decide_eq_true hd, cond_true,
    List.eraseDups_append, hall, ← groupAt]
  rfl

end

/-! ## The loop -/

/-- What the loop wrote for the candidates `done`. -/
structure Grouped (dist : Bytes → Int) (done : List Bytes) (r : Ranking) : Prop where
  packed : ∀ d, r.cadidate_sort d =
    if groupAt dist d done = [] then none else some (pack hashes (groupAt dist d done))
  nodup : r.sortED.Nodup
  dists : ∀ d, d ∈ r.sortED ↔ ∃ c ∈ done, dist c = d
  seen : ∀ c, r.uniq_cadidate c = none ↔ c ∉ done

theorem Grouped.nil (dist : Bytes → Int) : Grouped dist [] ⟨fun _ => none, [], fun _ => none⟩ where
  packed _ := (if_pos rfl).symm
  nodup := List.nodup_nil
  dists _ := by simp
  seen _ := iff_of_true rfl List.not_mem_nil

section
variable {Segment_ : Bytes → List Bytes} {new : Table} {str1 : Bytes}

/-- A candidate that was seen stands in its group. -/
theorem Grouped.rank_eq {done : List Bytes} {r : Ranking} {c : Bytes}
    (h : Grouped (calculate Segment_ new str1) done r) (hc : c ∈ done) :
    rank Segment_ new str1 r c = r := by
  have hgroup : groupAt (calculate Segment_ new str1) (calculate Segment_ new str1 c) done ≠ [] :=
    List.ne_nil_of_mem (mem_groupAt.mpr ⟨hc, rfl⟩)
  have hpacked := h.packed (calculate Segment_ new str1 c)
  rw [if_neg hgroup] at hpacked
  obtain ⟨n, hn⟩ := Option.ne_none_iff_exists'.mp (mt (h.seen c).mp (not_not.mpr hc))
  exact rank_seen hpacked hn

theorem Grouped.of_seen {dist : Bytes → Int} {done : List Bytes} {r : Ranking} {c : Bytes}
    (h : Grouped dist done r) (hc : c ∈ done) : Grouped dist (done ++ [c]) r where
  packed d := by rw [groupAt_concat_of_mem hc, h.packed d]
  nodup := h.nodup
  dists d := by
    rw [h.dists d]
    constructor
    · rintro ⟨c', hc', hd⟩
      exact ⟨c', List.mem_append_left _ hc', hd⟩
    · rintro ⟨c', hc', hd⟩
      rcases List.mem_append.mp hc' with hin | hin
      · exact ⟨c', hin, hd⟩
      · exact ⟨c, hc, List.mem_singleton.mp hin ▸ hd⟩
  seen c' := by
    rw [h.seen c', List.mem_append, List.mem_singleton, not_or]
    refine ⟨fun hout => ⟨hout, ?_⟩, And.left⟩
    rintro rfl
    exact hout hc

/-- A new candidate goes to the end of the group of its distance. -/
theorem Grouped.packed_new {dist : Bytes → Int} {done : List Bytes} {r : Ranking} {c : Bytes}
    (h : Grouped dist done r) (hc : c ∉ done) (d : Int) :
    Function.update r.cadidate_sort (dist c)
        (some (pack hashes (groupAt dist (dist c) done) ++ (c ++ hashes))) d =
      if groupAt dist d (done ++ [c]) = [] then none
      else some (pack hashes (groupAt dist d (done ++ [c]))) := by
  by_cases hd : d = dist c
  · subst hd
    rw [Function.update_self, groupAt_concat_new rfl hc,
      if_neg (List.append_ne_nil_of_right_ne_nil _ (List.cons_ne_nil c [])), pack_concat]
  · rw [Function.update_of_ne hd, groupAt_concat_of_ne (Ne.symm hd), h.packed d]

theorem Grouped.seen_new {dist : Bytes → Int} {done : List Bytes} {r : Ranking} {c : Bytes}
    (h : Grouped dist done r) (n : Int) (c' : Bytes) :
    Function.update r.uniq_cadidate c (some n) c' = none ↔ c' ∉ done ++ [c] := by
  rw [List.mem_append, List.mem_singleton, not_or]
  by_cases hc' : c' = c
  · rw [hc', Function.update_self]
    simp
  · rw [Function.update_of_ne hc', h.seen c']
    exact (and_iff_left hc').symm

/-- One round adds its candidate to the group of its distance. -/
theorem grouped_rank {done : List Bytes} {r : Ranking}
    (h : Grouped (calculate Segment_ new str1) done r) (c : Bytes) :
    Grouped (calculate Segment_ new str1) (done ++ [c]) (rank Segment_ new str1 r c) := by
  by_cases hc : c ∈ done
  · rw [h.rank_eq hc]
    exact h.of_seen hc
  · have hpacked := h.packed (calculate Segment_ new str1 c)
    have hdists : ∀ d, (d ∈ r.sortED ∨ d = calculate Segment_ new str1 c) ↔
        ∃ c' ∈ done ++ [c], calculate Segment_ new str1 c' = d := by
      intro d
      rw [h.dists d]
      simp only [List.mem_append, List.mem_singleton, or_and_right, exists_or, exists_eq_left]
      rw [eq_comm (b := calculate Segment_ new str1 c)]
    by_cases hgroup : groupAt (calculate Segment_ new str1) (calculate Segment_ new str1 c) done = []
    · -- the first candidate at its distance
      rw [if_pos hgroup] at hpacked
      have hout : calculate Segment_ new str1 c ∉ r.sortED := by
        intro hin
        obtain ⟨c', hc', hd⟩ := (h.dists _).mp hin
        exact List.ne_nil_of_mem (mem_groupAt.mpr ⟨hc', hd⟩) hgroup
      rw [rank_first hpacked]
      refine ⟨fun d => ?_, ?_, fun d => ?_, h.seen_new _⟩
      · have hnew := h.packed_new hc d
        rwa [hgroup] at hnew
      · exact List.nodup_append.mpr ⟨h.nodup, List.nodup_singleton _, fun a ha b hb hab =>
          hout (List.mem_singleton.mp hb ▸ hab ▸ ha)⟩
      · rw [List.mem_append, List.mem_singleton]
        exact hdists d
    · rw [if_neg hgroup] at hpacked
      rw [rank_next hpacked ((h.seen c).mpr hc)]
      refine ⟨h.packed_new hc, h.nodup, fun d => ?_, h.seen_new _⟩
      rw [← hdists d]
      refine ⟨.inl, fun hd => ?_⟩
      rcases hd with hd | rfl
      · exact hd
      · obtain ⟨c', hc'⟩ := List.exists_mem_of_ne_nil _ hgroup
        exact (h.dists _).mpr ⟨c', mem_groupAt.mp hc'⟩

theorem grouped_foldl (Segment_ : Bytes → List Bytes) (new : Table) (str1 : Bytes) :
    ∀ (cadidate done : List Bytes) {r : Ranking},
    Grouped (calculate Segment_ new str1) done r →
      Grouped (calculate Segment_ new str1) (done ++ cadidate)
        (cadidate.foldl (rank Segment_ new str1) r) := by
  intro cadidate
  induction cadidate with
  | nil =>
    intro done _ h
    rw [List.append_nil]
    exact h
  | cons c cadidate ih =>
    intro done r h
    have hrest := ih (done ++ [c]) (grouped_rank h c)
    rwa [List.append_assoc, List.singleton_append] at hrest

end

theorem grouped_rankAll (Segment_ : Bytes → List Bytes) (new : Nat → Table) (new' : Table)
    (str1 : Bytes) (cadidate : List Bytes) :
    Grouped (calculate Segment_ new' str1) cadidate
      (rankAll Segment_ new str1 cadidate (fun _ => none) []) := by
  rw [rankAll_eq_foldl new new']
  have hall := grouped_foldl Segment_ new' str1 cadidate []
    (Grouped.nil (calculate Segment_ new' str1))
  rwa [List.nil_append] at hall

/-! ## The sort -/

theorem sortByValue_isStrictWeakOrder :
    IsStrictWeakOrder Int fun v1 v2 => sortByValue v1 v2 = true where
  irrefl a := by
    rw [sortByValue, decide_eq_true_iff]
    exact Int.lt_irrefl a
  trans a b c hab hbc := by
    rw [sortByValue, decide_eq_true_iff] at hab hbc ⊢
    exact Int.lt_trans hab hbc
  incomp_trans a b c hab hbc := by
    simp only [sortByValue, decide_eq_true_iff] at hab hbc ⊢
    omega

/-- Different distances are sorted strictly. -/
theorem pairwise_lt_sort (std : StdSort Int) {l : List Int} (hl : l.Nodup) :
    (std.sort sortByValue l).Pairwise (· < ·) := by
  have hsorted := std.sorted sortByValue l sortByValue_isStrictWeakOrder
  have hnodup := (std.perm sortByValue l sortByValue_isStrictWeakOrder).nodup_iff.mpr hl
  refine (hsorted.and hnodup).imp fun {a b} h => ?_
  rw [sortByValue, decide_eq_true_iff] at h
  omega

/-! ## Taking the groups apart -/

/-- The distances are those of the candidates, in strict order, and `StringSplit`
finds each group again. -/
def TakenApart (dist : Bytes → Int) (cadidate : List Bytes)
    (out : (Int → Option Bytes) × List Int) : Prop :=
  out.2.Pairwise (· < ·) ∧ (∀ d, d ∈ out.2 ↔ ∃ c ∈ cadidate, dist c = d) ∧
    ∀ d ∈ out.2, ∃ packed, out.1 d = some packed ∧
      stringSplit packed hashes = some (groupAt dist d cadidate)

/-- **The groups are found again exactly when in each only the last candidate may end
in `#`, and only when it has no other character.** -/
theorem editSort_takenApart_iff (Segment_ : Bytes → List Bytes) (std : StdSort Int)
    (new : Nat → Table) (new' : Table) (str1 : Bytes) (cadidate : List Bytes)
    (hcadidate : ∀ c ∈ cadidate, c ≠ [] ∧ ¬ hashes <:+: c) :
    TakenApart (calculate Segment_ new' str1) cadidate
        (editSort Segment_ std new str1 cadidate (fun _ => none) []) ↔
      ∀ d, Apart 0x23 (groupAt (calculate Segment_ new' str1) d cadidate) := by
  have h := grouped_rankAll Segment_ new new' str1 cadidate
  have hperm := std.perm sortByValue
    (rankAll Segment_ new str1 cadidate (fun _ => none) []).sortED sortByValue_isStrictWeakOrder
  have hsplit : ∀ d, stringSplit (pack hashes (groupAt (calculate Segment_ new' str1) d cadidate))
        hashes = some (groupAt (calculate Segment_ new' str1) d cadidate) ↔
      Apart 0x23 (groupAt (calculate Segment_ new' str1) d cadidate) := by
    intro d
    rw [stringSplit_eq_some_iff (by decide) (by decide)]
    exact pieces_pack_iff (by decide) fun c hc => hcadidate c (mem_groupAt.mp hc).1
  constructor
  · rintro ⟨-, hdists, hgroups⟩ d
    by_cases hd : groupAt (calculate Segment_ new' str1) d cadidate = []
    · rw [hd]
      exact ⟨fun c hc => absurd hc List.not_mem_nil, fun c hc => by cases hc⟩
    · obtain ⟨c, hc⟩ := List.exists_mem_of_ne_nil _ hd
      obtain ⟨packed, hpacked, hrec⟩ := hgroups d ((hdists d).mpr ⟨c, mem_groupAt.mp hc⟩)
      have hpack := h.packed d
      rw [if_neg hd] at hpack
      obtain rfl := Option.some.inj (hpacked.symm.trans hpack)
      exact (hsplit d).mp hrec
  · intro hapart
    refine ⟨pairwise_lt_sort std h.nodup, fun d => ?_, fun d hd => ?_⟩
    · rw [← h.dists d]
      exact hperm.mem_iff
    · obtain ⟨c, hc⟩ := (h.dists d).mp (hperm.mem_iff.mp hd)
      have hpack := h.packed d
      rw [if_neg (List.ne_nil_of_mem (mem_groupAt.mpr hc))] at hpack
      exact ⟨_, hpack, (hsplit d).mpr (hapart d)⟩

/-- Candidates that do not end in `#` are found again. -/
theorem apart_groupAt {x : UInt8} {dist : Bytes → Int} {cadidate : List Bytes}
    (h : ∀ c ∈ cadidate, c.getLast? ≠ some x) (d : Int) : Apart x (groupAt dist d cadidate) := by
  have hends : ∀ c ∈ groupAt dist d cadidate, c.getLast? ≠ some x := by
    intro c hc
    exact h c (mem_groupAt.mp hc).1
  exact ⟨fun c hc => hends c (List.dropLast_subset _ hc),
    fun c hc hend => absurd hend (hends c (List.mem_of_getLast? hc))⟩

/-- Three candidates, one of them twice. -/
theorem editSort_takenApart_example :
    TakenApart (calculate (fun s => [s]) (fun _ _ => 0) [97]) [[98], [97], [98], [35, 99]]
      (editSort (fun s => [s]) default (fun _ _ _ => 0) [97] [[98], [97], [98], [35, 99]]
        (fun _ => none) []) :=
  (editSort_takenApart_iff (fun s => [s]) default (fun _ _ _ => 0) (fun _ _ => 0) [97]
    [[98], [97], [98], [35, 99]] (by decide)).mpr (apart_groupAt (by decide))

/-- The candidate `a#` comes back as `a` and `#`. -/
theorem editSort_overlap :
    ¬ TakenApart (calculate (fun s => [s]) (fun _ _ => 0) [97]) [[97, 35]]
      (editSort (fun s => [s]) default (fun _ _ _ => 0) [97] [[97, 35]] (fun _ => none) []) := by
  rintro ⟨-, hdists, hgroups⟩
  have hdist : calculate (fun s => [s]) (fun _ _ => 0) [97] [97, 35] = 2 := by decide
  obtain ⟨packed, hpacked, hsplit⟩ :=
    hgroups 2 ((hdists 2).mpr ⟨[97, 35], List.mem_singleton_self _, hdist⟩)
  have hval : (editSort (fun s => [s]) default (fun _ _ _ => 0) [97] [[97, 35]] (fun _ => none)
      []).1 2 = some [97, 35, 35, 35, 35] := by decide
  obtain rfl := Option.some.inj (hval.symm.trans hpacked)
  have hpieces : stringSplit [97, 35, 35, 35, 35] hashes = some [[97], [35]] := by decide
  have hgroup : groupAt (calculate (fun s => [s]) (fun _ _ => 0) [97]) 2 [[97, 35]] =
      [[97, 35]] := by decide
  rw [hpieces, hgroup] at hsplit
  cases hsplit

/-! ## The group at distance zero -/

section
variable {Segment_ : Bytes → List Bytes} {new : Table} {str1 : Bytes}

/-- A round that writes to a group has its candidate at that distance. -/
theorem calculate_of_rank_ne {r : Ranking} {c : Bytes} {d : Int}
    (h : (rank Segment_ new str1 r c).cadidate_sort d ≠ r.cadidate_sort d) :
    calculate Segment_ new str1 c = d := by
  by_contra hd
  refine h ?_
  cases hsort : r.cadidate_sort (calculate Segment_ new str1 c) with
  | none =>
    rw [rank_first hsort]
    exact Function.update_of_ne (Ne.symm hd) _ _
  | some packed =>
    cases hseen : r.uniq_cadidate c with
    | none =>
      rw [rank_next hsort hseen]
      exact Function.update_of_ne (Ne.symm hd) _ _
    | some n => rw [rank_seen hsort hseen]

/-- A candidate that was not seen is written to the group of its distance. -/
theorem rank_ne_of_unseen {r : Ranking} {c : Bytes} (h : r.uniq_cadidate c = none) :
    (rank Segment_ new str1 r c).cadidate_sort (calculate Segment_ new str1 c) ≠
      r.cadidate_sort (calculate Segment_ new str1 c) := by
  cases hsort : r.cadidate_sort (calculate Segment_ new str1 c) with
  | none =>
    rw [rank_first hsort]
    simp only [Function.update_self]
    exact Option.some_ne_none _
  | some packed =>
    rw [rank_next hsort h]
    simp only [Function.update_self]
    intro heq
    have hlen := congrArg List.length (Option.some.inj heq)
    rw [List.length_append, List.length_append, hashes, List.length_replicate] at hlen
    omega

theorem unseen_rank {r : Ranking} {c c' : Bytes} (hne : c ≠ c') (h : r.uniq_cadidate c = none) :
    (rank Segment_ new str1 r c').uniq_cadidate c = none := by
  cases hsort : r.cadidate_sort (calculate Segment_ new str1 c') with
  | none =>
    rw [rank_first hsort]
    exact (Function.update_of_ne hne _ _).trans h
  | some packed =>
    cases hseen : r.uniq_cadidate c' with
    | none =>
      rw [rank_next hsort hseen]
      exact (Function.update_of_ne hne _ _).trans h
    | some n => rwa [rank_seen hsort hseen]

theorem unseen_foldl : ∀ (cadidate : List Bytes) {r : Ranking} {c : Bytes}, c ∉ cadidate →
    r.uniq_cadidate c = none → (cadidate.foldl (rank Segment_ new str1) r).uniq_cadidate c = none
  | [], _, _, _, h => h
  | c' :: cadidate, r, c, hc, h => by
    obtain ⟨hne, hrest⟩ := not_or.mp (mt List.mem_cons.mpr hc)
    exact unseen_foldl cadidate hrest (unseen_rank hne h)

end

/-- The candidate `c` behind the candidates `before` is placed in the group `d`. -/
def Placed (Segment_ : Bytes → List Bytes) (new : Nat → Table) (str1 : Bytes)
    (before : List Bytes) (c : Bytes) (cadidate_sort : Int → Option Bytes) (sortED : List Int)
    (d : Int) : Prop :=
  let r := rankAll Segment_ new str1 before cadidate_sort sortED
  (rank Segment_ (new before.length) str1 r c).cadidate_sort d ≠ r.cadidate_sort d

/-- **Distance zero means equal words exactly when no text alone is without words.** -/
theorem zero_distance_iff (Segment_ : Bytes → List Bytes) :
    (∀ new str1 str2, (calculate Segment_ new str1 str2 = 0 → Segment_ str1 = Segment_ str2) ↔
        (Segment_ str1 = [] ↔ Segment_ str2 = [])) ∧
      ∀ new str1 cadidate cadidate_sort sortED,
        (∀ before c after, cadidate = before ++ c :: after →
            Placed Segment_ new str1 before c cadidate_sort sortED 0 →
              Segment_ str1 = Segment_ c) ↔
          ∀ c ∈ cadidate, (Segment_ str1 = [] ↔ Segment_ c = []) := by
  refine ⟨fun new str1 str2 => calculate_zero_sound_iff,
    fun new str1 cadidate cadidate_sort sortED => ⟨fun h c hc => ?_, ?_⟩⟩
  · -- the first time that the candidate stands in the list it is placed
    obtain ⟨before, after, hsplit, hnew⟩ := List.eq_append_cons_of_mem hc
    have hsound : calculate Segment_ (new before.length) str1 c = 0 →
        Segment_ str1 = Segment_ c := by
      intro hzero
      refine h before c after hsplit ?_
      unfold Placed
      rw [rankAll_eq_foldl new (new before.length), ← hzero]
      exact rank_ne_of_unseen (unseen_foldl before hnew rfl)
    exact calculate_zero_sound_iff.mp hsound
  · rintro h before c after rfl hplaced
    have hc : c ∈ before ++ c :: after := List.mem_append_right _ List.mem_cons_self
    exact calculate_zero_sound_iff.mpr (h c hc) (calculate_of_rank_ne hplaced)

/-- An empty text and a text of one word. -/
theorem zero_distance_empty :
    ¬ ∀ (Segment_ : Bytes → List Bytes) new str1 str2,
      calculate Segment_ new str1 str2 = 0 → Segment_ str1 = Segment_ str2 := by
  intro h
  have heq := h (fun s => if s = [] then [] else [s]) (fun _ _ => 0) [97] [] (by decide)
  exact absurd heq (by decide)

end CommonTools.Similarity
