import CommonTools.Lib.Search

/-! # Bracketed parts taken out of a list

A part begins with an opening and ends with the next closing element. The parts are taken out
from the left, each one anew from what the last left behind. Where openings stand apart none is
put together from what remains, and where there are enough closing elements none is left. -/
namespace CommonTools.Lib

variable {α : Type}

/-! ## Taking out -/

section
variable [DecidableEq α]

/-- `l'` is `l` without the parts that begin with `opening` and end with `close`; no opening is
left without a `close`. -/
inductive TakenOut (opening : List α) (close : α) : List α → List α → Prop where
  | done {l : List α} (hnone : find opening l = none) : TakenOut opening close l l
  | part {front inner rest l' : List α}
      (hfirst : find opening (front ++ (opening ++ (inner ++ close :: rest))) = some front.length)
      (hinner : close ∉ inner) (hrest : TakenOut opening close (front ++ rest) l') :
      TakenOut opening close (front ++ (opening ++ (inner ++ close :: rest))) l'

end

/-- No opening stands directly behind the beginning of one. -/
def OpeningsApart (openings : List (List α)) (l : List α) : Prop :=
  ∀ o ∈ openings, ∀ o' ∈ openings, ∀ a, a ≠ [] → a <+: o → a ≠ o → ¬ a ++ o' <:+: l

instance [DecidableEq α] (openings : List (List α)) (l : List α) :
    Decidable (OpeningsApart openings l) :=
  decidable_of_iff
    (∀ o ∈ openings, ∀ o' ∈ openings, ∀ a ∈ o.inits, a ≠ [] → a ≠ o → ¬ a ++ o' <:+: l) <| by
    simp only [OpeningsApart, List.mem_inits]
    exact ⟨fun h o ho o' ho' a hne hpre => h o ho o' ho' a hpre hne,
      fun h o ho o' ho' a hpre hne => h o ho o' ho' a hne hpre⟩

def countOpenings [DecidableEq α] (openings : List (List α)) : List α → Nat
  | [] => 0
  | x :: l => (if ∃ o ∈ openings, o <+: x :: l then 1 else 0) + countOpenings openings l

/-- From each opening on there are at least as many closing elements as openings. -/
def ClosesEnough [DecidableEq α] (openings : List (List α)) (close : α) (l : List α) : Prop :=
  ∀ t, t <:+ l → (∃ o ∈ openings, o <+: t) → countOpenings openings t ≤ t.count close

instance [DecidableEq α] (openings : List (List α)) (close : α) (l : List α) :
    Decidable (ClosesEnough openings close l) :=
  decidable_of_iff (∀ t ∈ l.tails, (∃ o ∈ openings, o <+: t) →
    countOpenings openings t ≤ t.count close) <| by simp only [ClosesEnough, List.mem_tails]

/-- Between an opening and the next one stands a closing element. -/
def Unnested (openings : List (List α)) (close : α) (l : List α) : Prop :=
  ∀ inner rest, inner ++ rest <:+ l → inner ≠ [] → (∃ o ∈ openings, o <+: inner ++ rest) →
    (∃ o ∈ openings, o <+: rest) → close ∈ inner

section
variable [DecidableEq α] {opening : List α} {close : α} {l l' : List α}
  {openings : List (List α)}

theorem TakenOut.length_le (h : TakenOut opening close l l') : l'.length ≤ l.length := by
  induction h with
  | done => exact Nat.le_refl _
  | part _ _ _ ih =>
    simp only [List.length_append, List.length_cons] at ih ⊢
    omega

end

/-! ## Openings that stand apart -/

section
variable {opening : List α} {openings : List (List α)}

/-- In front of an opening no beginning of one ends. -/
theorem OpeningsApart.not_suffix {front rest a o : List α}
    (h : OpeningsApart openings (front ++ (opening ++ rest)))
    (hopening : opening ∈ openings) (ho : o ∈ openings) (hne : a ≠ []) (hpre : a <+: o)
    (hproper : a ≠ o) : ¬ a <:+ front := by
  intro hsuf
  obtain ⟨front, rfl⟩ := hsuf
  exact h o ho opening hopening a hne hpre hproper ⟨front, rest, by simp⟩

/-- What stands at the seam was there before. -/
theorem OpeningsApart.prefix_seam {front rest rest' f o : List α}
    (h : OpeningsApart openings (front ++ (opening ++ rest))) (hopening : opening ∈ openings)
    (ho : o ∈ openings) (hf : f <:+ front) (hne : f ≠ []) (hpre : o <+: f ++ rest') : o <+: f := by
  rcases List.prefix_or_prefix_of_prefix hpre (List.prefix_append f rest') with hle | hle
  · exact hle
  · by_cases heq : f = o
    · rw [heq]
    · exact absurd hf (h.not_suffix hopening ho hne hle heq)

/-- No opening is put together where a part is taken out. -/
theorem OpeningsApart.infix_seam {front rest rest' o : List α}
    (h : OpeningsApart openings (front ++ (opening ++ rest))) (hopening : opening ∈ openings)
    (ho : o ∈ openings) (hin : o <:+: front ++ rest') : o <:+: front ∨ o <:+: rest' := by
  obtain ⟨p, q, hpq⟩ := hin
  rw [List.append_assoc] at hpq
  rcases List.append_eq_append_iff.mp hpq with ⟨f, hfront, hrest⟩ | ⟨f, hp, hrest⟩
  · by_cases hne : f = []
    · rw [hne, List.nil_append] at hrest
      exact .inr ⟨[], q, hrest⟩
    · have hpre := h.prefix_seam hopening ho ⟨p, hfront.symm⟩ hne ⟨q, hrest⟩
      exact .inl (hpre.isInfix.trans ⟨p, [], by rw [List.append_nil, hfront]⟩)
  · exact .inr ⟨f, q, by rw [List.append_assoc, hrest]⟩

/-- Nor does one come to stand behind the beginning of one. -/
theorem OpeningsApart.seam {front rest rest' : List α}
    (h : OpeningsApart openings (front ++ (opening ++ rest))) (hopening : opening ∈ openings)
    (hrest : rest' <:+ rest) : OpeningsApart openings (front ++ rest') := by
  intro o ho o' ho' a hne hpre hproper hin
  have hfront : ¬ a ++ o' <:+: front := fun hin =>
    h o ho o' ho' a hne hpre hproper (hin.trans (List.prefix_append _ _).isInfix)
  have hback : ¬ a ++ o' <:+: rest' := fun hin => by
    refine h o ho o' ho' a hne hpre hproper (hin.trans (hrest.isInfix.trans ?_))
    exact ((List.suffix_append _ _).trans (List.suffix_append _ _)).isInfix
  obtain ⟨p, q, hpq⟩ := hin
  rw [List.append_assoc] at hpq
  rcases List.append_eq_append_iff.mp hpq with ⟨f, hf, htail⟩ | ⟨f, hf, htail⟩
  · by_cases hnil : f = []
    · rw [hnil, List.nil_append] at htail
      exact hback ⟨[], q, htail⟩
    have hsuf : f <:+ front := ⟨p, hf.symm⟩
    rw [List.append_assoc] at htail
    rcases List.append_eq_append_iff.mp htail with ⟨b, hb, htail⟩ | ⟨b, hb, htail⟩
    · -- the beginning ends in `front`, so the opening behind it does too
      by_cases hb' : b = []
      · rw [hb', List.append_nil] at hb
        exact h.not_suffix hopening ho hne hpre hproper (hb ▸ hsuf)
      · have hbsuf : b <:+ front := List.IsSuffix.trans ⟨a, hb.symm⟩ hsuf
        obtain ⟨c, hc⟩ := h.prefix_seam hopening ho' hbsuf hb' ⟨q, htail⟩
        refine hfront (List.IsInfix.trans ⟨[], c, ?_⟩ hsuf.isInfix)
        rw [List.nil_append, List.append_assoc, hc, hb]
    · -- the beginning goes over the seam
      have hfa : f <+: a := ⟨b, hb.symm⟩
      refine h.not_suffix hopening ho hnil (hfa.trans hpre) (fun heq => hproper ?_) hsuf
      exact hpre.eq_of_length_le (heq ▸ hfa.length_le)
  · exact hback ⟨f, q, by rw [List.append_assoc, htail]⟩

end

/-! ## Enough closing elements -/

section
variable [DecidableEq α] {opening : List α} {close : α} {openings : List (List α)}

theorem countOpenings_le : ∀ {l t : List α}, t <:+ l →
    countOpenings openings t ≤ countOpenings openings l
  | [], t, h => by rw [List.suffix_nil.mp h]
  | x :: l, t, h => by
    rcases List.suffix_cons_iff.mp h with rfl | h
    · exact Nat.le_refl _
    · exact (countOpenings_le h).trans (Nat.le_add_left _ _)

/-- What is in front of the seam has no more openings than before, and one is gone. -/
theorem OpeningsApart.count_seam {front rest rest' : List α}
    (h : OpeningsApart openings (front ++ (opening ++ rest))) (hopening : opening ∈ openings)
    (hne : opening ≠ []) (hrest : rest' <:+ rest) : ∀ {f : List α}, f <:+ front →
      countOpenings openings (f ++ rest') + 1 ≤ countOpenings openings (f ++ (opening ++ rest))
  | [], _ => by
    obtain ⟨x, o, rfl⟩ := List.exists_cons_of_ne_nil hne
    have hle : countOpenings openings rest' ≤ countOpenings openings (o ++ rest) :=
      countOpenings_le (hrest.trans (List.suffix_append o rest))
    rw [List.nil_append, List.nil_append, List.cons_append, countOpenings,
      if_pos ⟨_, hopening, List.prefix_append (x :: o) rest⟩]
    omega
  | x :: f, hf => by
    have hle := h.count_seam hopening hne hrest ((List.suffix_cons x f).trans hf)
    rw [List.cons_append, List.cons_append, countOpenings, countOpenings]
    have hmono : (∃ o ∈ openings, o <+: x :: (f ++ rest')) →
        ∃ o ∈ openings, o <+: x :: (f ++ (opening ++ rest)) := by
      rintro ⟨o, ho, hpre⟩
      have hin : o <+: x :: f := h.prefix_seam hopening ho hf (List.cons_ne_nil x f) hpre
      exact ⟨o, ho, hin.trans (List.prefix_append (x :: f) _)⟩
    split
    · rw [if_pos (hmono (by assumption))]
      omega
    · omega

/-- Each opening has a closing element of its own: where one opening has been passed and no closing
element yet, one more is still to come. -/
theorem Unnested.count_le {l : List α} (h : Unnested openings close l)
    (hop : ∀ o ∈ openings, o ≠ [] ∧ close ∉ o)
    (hclosed : ∀ o ∈ openings, ∀ rest, o ++ rest <:+ l → close ∈ rest) : ∀ t, t <:+ l →
      countOpenings openings t ≤ t.count close ∧
        ∀ inner, inner ++ t <:+ l → inner ≠ [] → (∃ o ∈ openings, o <+: inner ++ t) →
          close ∉ inner → countOpenings openings t + 1 ≤ t.count close
  | [], _ => by
    refine ⟨Nat.le_refl _, fun inner hin _ ⟨o, ho, hpre⟩ hnot => absurd ?_ hnot⟩
    obtain ⟨rest, hrest⟩ := hpre
    rw [List.append_nil] at hin hrest
    have hmem := hclosed o ho rest (hrest ▸ hin)
    rw [← hrest]
    exact List.mem_append_right o hmem
  | x :: t, ht => by
    obtain ⟨hle, hnext⟩ := h.count_le hop hclosed t ((List.suffix_cons x t).trans ht)
    rw [countOpenings, List.count_cons]
    constructor
    · by_cases hopen : ∃ o ∈ openings, o <+: x :: t
      · -- the opening is the one that has been passed
        have hx : x ≠ close := by
          rintro rfl
          obtain ⟨o, ho, hpre⟩ := hopen
          obtain ⟨hne, hclose⟩ := hop o ho
          obtain ⟨y, o, rfl⟩ := List.exists_cons_of_ne_nil hne
          exact hclose ((List.cons_prefix_cons.mp hpre).1 ▸ List.mem_cons_self)
        have hmore := hnext [x] ht (List.cons_ne_nil x []) hopen
          fun hmem => hx (List.mem_singleton.mp hmem).symm
        rw [if_pos hopen]
        omega
      · rw [if_neg hopen]
        omega
    · intro inner hin hne hpre hnot
      have hopen : ¬ ∃ o ∈ openings, o <+: x :: t := fun hopen =>
        hnot (h inner (x :: t) hin hne hpre hopen)
      rw [if_neg hopen]
      by_cases hx : x = close
      · rw [if_pos (beq_iff_eq.mpr hx)]
        omega
      · have hassoc : inner ++ [x] ++ t = inner ++ x :: t := List.append_assoc ..
        have hmore := hnext (inner ++ [x]) (hassoc ▸ hin) (List.append_ne_nil_of_left_ne_nil hne [x])
          (hassoc ▸ hpre) fun hmem => by
            rcases List.mem_append.mp hmem with hmem | hmem
            · exact hnot hmem
            · exact hx (List.mem_singleton.mp hmem).symm
        omega

/-- Openings that stand apart, each with closing elements enough behind it. -/
structure Tidy (openings : List (List α)) (close : α) (l : List α) : Prop where
  apart : OpeningsApart openings l
  closed : ClosesEnough openings close l

section
variable {front inner rest : List α}
  (hop : ∀ o ∈ openings, o ≠ [] ∧ close ∉ o) (hopening : opening ∈ openings)
include hop hopening

/-- **A list stays so where a part is taken out.** -/
theorem Tidy.part (h : Tidy openings close (front ++ (opening ++ (inner ++ close :: rest))))
    (hinner : close ∉ inner) : Tidy openings close (front ++ rest) := by
  obtain ⟨hne, hclose⟩ := hop opening hopening
  have hrest : rest <:+ inner ++ close :: rest :=
    (List.suffix_cons close rest).trans (List.suffix_append _ _)
  refine ⟨h.apart.seam hopening hrest, fun t ht hstart => ?_⟩
  rcases List.suffix_or_suffix_of_suffix ht (List.suffix_append front rest) with hbehind | hbefore
  · exact h.closed t (hbehind.trans (hrest.trans
      ((List.suffix_append _ _).trans (List.suffix_append _ _)))) hstart
  · obtain ⟨f, rfl⟩ := hbefore
    have hf : f <:+ front := List.suffix_append_self_iff.mp ht
    have hle := h.apart.count_seam hopening hne hrest hf
    by_cases hnil : f = []
    · subst hnil
      exact h.closed rest (hrest.trans ((List.suffix_append _ _).trans (List.suffix_append _ _)))
        hstart
    · obtain ⟨o, ho, hpre⟩ := hstart
      have hpre := h.apart.prefix_seam hopening ho hf hnil hpre
      have hcount := h.closed (f ++ (opening ++ (inner ++ close :: rest)))
        (List.suffix_append_self_iff.mpr hf) ⟨o, ho, hpre.trans (List.prefix_append f _)⟩
      rw [List.count_append, List.count_append, List.count_append, List.count_cons_self,
        List.count_eq_zero.mpr hclose, List.count_eq_zero.mpr hinner] at hcount
      rw [List.count_append]
      omega

/-- What can be taken out of such a list leaves such a list, with no new opening in it. -/
theorem Tidy.takenOut {l : List α} (h : Tidy openings close l) :
    ∃ l', TakenOut opening close l l' ∧ Tidy openings close l' ∧
      ∀ o ∈ openings, find o l = none → find o l' = none := by
  induction hlen : l.length using Nat.strong_induction_on generalizing l with
  | _ n ih =>
    cases hfind : find opening l with
    | none => exact ⟨l, .done hfind, h, fun _ _ hnone => hnone⟩
    | some p =>
      obtain ⟨hne, hclose⟩ := hop opening hopening
      obtain ⟨⟨hp, tail, htail⟩, -⟩ := find_eq_some_iff.mp hfind
      have hsplit : l = l.take p ++ (opening ++ tail) := by rw [htail, List.take_append_drop]
      -- the opening itself asks for a closing element
      have hcount := h.closed (opening ++ tail) ⟨l.take p, hsplit.symm⟩
        ⟨opening, hopening, List.prefix_append _ _⟩
      have hpos : 0 < countOpenings openings (opening ++ tail) := by
        obtain ⟨x, o, rfl⟩ := List.exists_cons_of_ne_nil hne
        rw [List.cons_append, countOpenings, if_pos ⟨_, hopening, List.prefix_append (x :: o) tail⟩]
        omega
      rw [List.count_append, List.count_eq_zero.mpr hclose, Nat.zero_add] at hcount
      obtain ⟨inner, rest, rfl, hinner⟩ :=
        List.eq_append_cons_of_mem (List.count_pos_iff.mp (Nat.lt_of_lt_of_le hpos hcount))
      have hlt : (l.take p).length = p := by rw [List.length_take]; omega
      generalize l.take p = front at hsplit hlt
      subst hsplit hlt
      have hsize : (front ++ rest).length < n := by
        rw [← hlen]
        simp
        omega
      obtain ⟨l', hl', htidy, hnone⟩ := ih _ hsize (h.part hop hopening hinner) rfl
      refine ⟨l', .part hfind hinner hl', htidy, fun o ho hgone => hnone o ho ?_⟩
      by_contra hfound
      have hin := find_isSome_iff.mp (Option.isSome_iff_ne_none.mpr hfound)
      have hin' : o <:+: front ++ (opening ++ (inner ++ close :: rest)) := by
        rcases h.apart.infix_seam hopening ho hin with hin | hin
        · exact hin.trans (List.prefix_append _ _).isInfix
        · exact hin.trans ⟨front ++ (opening ++ (inner ++ [close])), [], by simp⟩
      have hsome := find_isSome_iff.mpr hin'
      rw [hgone] at hsome
      cases hsome

end

end

end CommonTools.Lib
