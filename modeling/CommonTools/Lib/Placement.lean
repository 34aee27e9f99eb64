import Mathlib.Data.List.Basic

/-! # Patterns with places to leave out

A row of words is laid on a pattern from left to right. Some places of the
pattern can be left out wherever they stand, some only behind the last word.
Taking every match at once finds a placement whenever there is one. -/
namespace CommonTools.Lib

section
variable {α β : Type} (anywhere last : α → Bool)

/-- The places without a match may be left out. -/
def LeavesOut : List (α × Option β) → Prop
  | [] => True
  | (a, m) :: marks =>
    (m = none → anywhere a = true ∨ last a = true ∧ ∀ e ∈ marks, e.2 = none) ∧ LeavesOut marks

/-- The words that a placement uses. -/
def placed (marks : List (α × Option β)) : List (α × β) :=
  marks.filterMap fun e => e.2.map (e.1, ·)

/-- `marks` lays `words` on `pattern`. -/
structure Places (pattern : List α) (words : List (α × β)) (marks : List (α × Option β)) : Prop where
  pattern : marks.map Prod.fst = pattern
  words : placed marks = words
  leaves : LeavesOut anywhere last marks

/-- The placement that takes every match. -/
def greedy [DecidableEq α] : List α → List (α × β) → Option (List (α × Option β))
  | [], [] => some []
  | [], _ :: _ => none
  | a :: pattern, [] =>
    if anywhere a = true ∨ last a = true then (greedy pattern []).map ((a, none) :: ·) else none
  | a :: pattern, w :: words =>
    if a = w.1 then (greedy pattern words).map ((a, some w.2) :: ·)
    else if anywhere a = true then (greedy pattern (w :: words)).map ((a, none) :: ·)
    else none

end

section
variable {α β : Type} {anywhere last : α → Bool}

@[simp] theorem placed_nil : placed ([] : List (α × Option β)) = [] := rfl

@[simp] theorem placed_cons_some (a : α) (b : β) (marks : List (α × Option β)) :
    placed ((a, some b) :: marks) = (a, b) :: placed marks := rfl

@[simp] theorem placed_cons_none (a : α) (marks : List (α × Option β)) :
    placed ((a, none) :: marks) = placed marks := rfl

theorem placed_eq_nil : ∀ {marks : List (α × Option β)}, placed marks = [] →
    ∀ e ∈ marks, e.2 = none
  | [], _, _, he => nomatch he
  | (_, some _) :: _, h, _, _ => nomatch h
  | (_, none) :: _, h, _, he => (List.mem_cons.mp he).elim (fun he => by rw [he]) fun he =>
    placed_eq_nil (by simpa using h) _ he

theorem placed_of_none {marks : List (α × Option β)} (h : ∀ e ∈ marks, e.2 = none) :
    placed marks = [] := by
  refine List.filterMap_eq_nil_iff.mpr fun e he => ?_
  rw [h e he]
  rfl

variable {a : α} {b : β} {pattern : List α} {words : List (α × β)}
variable {marks : List (α × Option β)}

theorem places_cons_some {c : α} : Places anywhere last (c :: pattern) words ((a, some b) :: marks) ↔
    a = c ∧ ∃ rest, words = (a, b) :: rest ∧ Places anywhere last pattern rest marks := by
  constructor
  · rintro ⟨hp, hw, hl⟩
    obtain ⟨ha, hp⟩ := List.cons.inj hp
    exact ⟨ha, _, hw.symm, hp, rfl, hl.2⟩
  · rintro ⟨rfl, rest, rfl, hp, hw, hl⟩
    refine ⟨by rw [List.map_cons, hp], by rw [placed_cons_some, hw], ?_⟩
    exact And.intro (fun hm => nomatch hm) hl

/-- A place left out in front of a placement. -/
theorem places_cons_none {c : α} : Places anywhere last (c :: pattern) words ((a, none) :: marks) ↔
    a = c ∧ (anywhere a = true ∨ last a = true ∧ words = []) ∧
      Places anywhere last pattern words marks := by
  constructor
  · rintro ⟨hp, hw, hl⟩
    obtain ⟨ha, hp⟩ := List.cons.inj hp
    rw [placed_cons_none] at hw
    refine ⟨ha, (hl.1 rfl).imp_right fun h => ⟨h.1, ?_⟩, hp, hw, hl.2⟩
    rw [← hw, placed_of_none h.2]
  · rintro ⟨rfl, ha, hp, hw, hl⟩
    refine ⟨by rw [List.map_cons, hp], by rw [placed_cons_none, hw], ?_⟩
    refine And.intro (fun _ => ha.imp_right fun h => ⟨h.1, ?_⟩) hl
    exact placed_eq_nil (hw.trans h.2)

/-- The exchange: behind a place that can be left out, a word finds its match
later, and that match can be left out instead. -/
theorem Places.exchange : ∀ {pattern : List α} {marks : List (α × Option β)},
    Places anywhere last pattern ((a, b) :: words) marks → anywhere a = true →
      ∃ marks', Places anywhere last pattern words marks'
  | [], [], h, _ => nomatch h.words
  | [], _ :: _, h, _ => nomatch h.pattern
  | _ :: _, [], h, _ => nomatch h.pattern
  | c :: pattern, (d, some e) :: marks, h, ha => by
    obtain ⟨rfl, rest, hw, hrest⟩ := places_cons_some.mp h
    obtain ⟨hd, rfl⟩ := List.cons.inj hw
    obtain ⟨rfl, -⟩ := Prod.mk.inj hd
    exact ⟨_, places_cons_none.mpr ⟨rfl, .inl ha, hrest⟩⟩
  | c :: pattern, (d, none) :: marks, h, ha => by
    obtain ⟨rfl, hd, hrest⟩ := places_cons_none.mp h
    obtain ⟨marks', hrest'⟩ := hrest.exchange ha
    rcases hd with hd | ⟨-, hw⟩
    · exact ⟨_, places_cons_none.mpr ⟨rfl, .inl hd, hrest'⟩⟩
    · cases hw

variable [DecidableEq α]

theorem greedy_places : ∀ {pattern : List α} {words : List (α × β)} {marks : List (α × Option β)},
    greedy anywhere last pattern words = some marks → Places anywhere last pattern words marks
  | [], [], _, h => by
    cases h
    exact ⟨rfl, rfl, trivial⟩
  | [], _ :: _, _, h => nomatch h
  | a :: pattern, [], marks, h => by
    rw [greedy] at h
    split at h
    · rename_i ha
      obtain ⟨rest, hrest, rfl⟩ := Option.map_eq_some_iff.mp h
      exact places_cons_none.mpr ⟨rfl, ha.imp_right fun h => ⟨h, rfl⟩, greedy_places hrest⟩
    · cases h
  | a :: pattern, (c, d) :: words, marks, h => by
    rw [greedy] at h
    split at h
    · rename_i hac
      obtain ⟨rest, hrest, rfl⟩ := Option.map_eq_some_iff.mp h
      exact places_cons_some.mpr ⟨rfl, words, by rw [hac], greedy_places hrest⟩
    · split at h
      · rename_i ha
        obtain ⟨rest, hrest, rfl⟩ := Option.map_eq_some_iff.mp h
        exact places_cons_none.mpr ⟨rfl, .inl ha, greedy_places hrest⟩
      · cases h

theorem Places.greedy : ∀ {pattern : List α} {words : List (α × β)} {marks : List (α × Option β)},
    Places anywhere last pattern words marks → (greedy anywhere last pattern words).isSome = true
  | [], words, marks, ⟨hp, hw, _⟩ => by
    rw [List.map_eq_nil_iff.mp hp] at hw
    subst hw
    rfl
  | _ :: _, _, [], h => nomatch h.pattern
  | a :: pattern, [], (c, some d) :: marks, h => nomatch h.words
  | a :: pattern, [], (c, none) :: marks, h => by
    obtain ⟨rfl, hc, hrest⟩ := places_cons_none.mp h
    rw [Lib.greedy, if_pos (hc.imp_right And.left), Option.isSome_map]
    exact hrest.greedy
  | a :: pattern, w :: words, (c, some d) :: marks, h => by
    obtain ⟨rfl, rest, hw, hrest⟩ := places_cons_some.mp h
    obtain ⟨rfl, rfl⟩ := List.cons.inj hw
    rw [Lib.greedy, if_pos rfl, Option.isSome_map]
    exact hrest.greedy
  | a :: pattern, w :: words, (c, none) :: marks, h => by
    obtain ⟨rfl, hc, hrest⟩ := places_cons_none.mp h
    have hc : anywhere c = true := hc.elim id fun hlast => nomatch hlast.2
    rw [Lib.greedy]
    split
    · rename_i hcw
      -- the match that the greedy placement takes was left out here
      obtain ⟨marks', hrest'⟩ := @Places.exchange _ _ _ _ c w.2 words _ _ (by rw [hcw]; exact hrest) hc
      rw [Option.isSome_map]
      exact hrest'.greedy
    · rw [Option.isSome_map]
      exact hrest.greedy

theorem greedy_isSome_iff : (greedy anywhere last pattern words).isSome = true ↔
    ∃ marks, Places anywhere last pattern words marks := by
  constructor
  · intro h
    obtain ⟨marks, h⟩ := Option.isSome_iff_exists.mp h
    exact ⟨marks, greedy_places h⟩
  · rintro ⟨marks, h⟩
    exact h.greedy

end

end CommonTools.Lib
