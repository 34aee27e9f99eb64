import CommonTools.Lib.Search

/-! # Texts behind one another with a separator

`pack` puts a separator behind each text; `Pieces` is what a search for the
separator from the left finds between the occurrences. When the separator repeats
one character, a text that ends in this character is not found again. -/
namespace CommonTools.Lib

variable {α : Type} {sep s : List α}

def pack (sep : List α) (l : List (List α)) : List α := l.flatMap (· ++ sep)

theorem pack_cons (sep c : List α) (l : List (List α)) :
    pack sep (c :: l) = c ++ sep ++ pack sep l := by rw [pack, List.flatMap_cons, ← pack]

theorem pack_concat (sep : List α) (l : List (List α)) (c : List α) :
    pack sep (l ++ [c]) = pack sep l ++ (c ++ sep) := by
  rw [pack, List.flatMap_append, List.flatMap_singleton, ← pack]

theorem sep_suffix_pack (sep : List α) {l : List (List α)} (hl : l ≠ []) :
    sep <:+ pack sep l := by
  rw [← List.dropLast_append_getLast hl, pack_concat]
  exact (List.suffix_append _ sep).trans (List.suffix_append _ _)

section
variable [DecidableEq α]

theorem find_eq_none_of_short {needle s : List α} (h : s.length < needle.length) :
    find needle s = none := by
  rw [Option.eq_none_iff_forall_ne_some]
  intro i hi
  have hle := find_le hi
  omega

/-- The pieces between the occurrences of `sep`; empty ones are left out. -/
inductive Pieces (sep : List α) : List α → List (List α) → Prop
  | nil : find sep [] = none → Pieces sep [] []
  | last {s : List α} : find sep s = none → s ≠ [] → Pieces sep s [s]
  | skip {s : List α} {l : List (List α)} : find sep s = some 0 →
      Pieces sep (s.drop sep.length) l → Pieces sep s l
  | cut {s : List α} {l : List (List α)} {k : Nat} : find sep s = some k → 0 < k →
      Pieces sep (s.drop (k + sep.length)) l → Pieces sep s (s.take k :: l)

theorem Pieces.isInfix {l : List (List α)} (h : Pieces sep s l) : ∀ c ∈ l, c <:+: s := by
  induction h with
  | nil _ => simp
  | last _ _ => simp
  | skip _ _ ih => exact fun c hc => (ih c hc).trans (List.drop_suffix _ _).isInfix
  | cut _ _ _ ih =>
    intro c hc
    rcases List.mem_cons.mp hc with rfl | hc
    · exact (List.take_prefix _ _).isInfix
    · exact (ih c hc).trans (List.drop_suffix _ _).isInfix

theorem Pieces.unique {l l' : List (List α)} (h : Pieces sep s l) (h' : Pieces sep s l') :
    l = l' := by
  induction h generalizing l' with
  | nil hnone =>
    cases h' with
    | nil _ => rfl
    | last _ hne => exact absurd rfl hne
    | skip hk _ => rw [hnone] at hk; cases hk
    | cut hk _ _ => rw [hnone] at hk; cases hk
  | last hnone hne =>
    cases h' with
    | nil _ => exact absurd rfl hne
    | last _ _ => rfl
    | skip hk _ => rw [hnone] at hk; cases hk
    | cut hk _ _ => rw [hnone] at hk; cases hk
  | skip hk _ ih =>
    cases h' with
    | nil hnone => rw [hnone] at hk; cases hk
    | last hnone _ => rw [hnone] at hk; cases hk
    | skip _ hrest => exact ih hrest
    | cut hk' hpos _ =>
      rw [hk] at hk'
      exact absurd (Option.some.inj hk') (Nat.ne_of_lt hpos)
  | cut hk hpos _ ih =>
    cases h' with
    | nil hnone => rw [hnone] at hk; cases hk
    | last hnone _ => rw [hnone] at hk; cases hk
    | skip hk' _ =>
      rw [hk] at hk'
      exact absurd (Option.some.inj hk') (Nat.ne_of_gt hpos)
    | cut hk' _ hrest =>
      rw [hk] at hk'
      obtain rfl := Option.some.inj hk'
      rw [ih hrest]

/-- With an occurrence of the separator the pieces are what stands in front of it, unless this is
empty, and the pieces behind it. -/
theorem pieces_iff_of_find {l : List (List α)} {k : Nat} (hk : find sep s = some k) :
    Pieces sep s l ↔ ∃ l', Pieces sep (s.drop (k + sep.length)) l' ∧
      l = [s.take k].filter (· ≠ []) ++ l' := by
  have hfilter : [s.take k].filter (· ≠ []) = if k = 0 then [] else [s.take k] := by
    have hle := find_le hk
    by_cases hk0 : k = 0
    · simp [hk0]
    · have hne : s.take k ≠ [] := by
        rw [← List.length_pos_iff, List.length_take]
        omega
      simp [hk0, hne]
  rw [hfilter]
  constructor
  · intro h
    cases h with
    | nil hnone => rw [hnone] at hk; cases hk
    | last hnone _ => rw [hnone] at hk; cases hk
    | skip hk' hrest =>
      obtain rfl := Option.some.inj (hk.symm.trans hk')
      rw [Nat.zero_add]
      exact ⟨l, hrest, rfl⟩
    | cut hk' hpos hrest =>
      obtain rfl := Option.some.inj (hk.symm.trans hk')
      rw [if_neg (Nat.ne_of_gt hpos)]
      exact ⟨_, hrest, rfl⟩
  · intro h
    obtain ⟨l', hrest, rfl⟩ := h
    by_cases hk0 : k = 0
    · subst hk0
      rw [Nat.zero_add] at hrest
      exact .skip hk hrest
    · rw [if_neg hk0]
      exact .cut hk (Nat.pos_of_ne_zero hk0) hrest

theorem pieces_of_none {l : List (List α)} (hnone : find sep s = none) :
    Pieces sep s l ↔ l = [s].filter (· ≠ []) := by
  by_cases hnil : s = []
  · subst hnil
    refine ⟨fun h => h.unique (.nil hnone), fun h => ?_⟩
    rw [h]
    exact .nil hnone
  · have hfilter : [s].filter (· ≠ []) = [s] := by simp [hnil]
    rw [hfilter]
    refine ⟨fun h => h.unique (.last hnone hnil), fun h => ?_⟩
    rw [h]
    exact .last hnone hnil

/-- No piece is left when there are separators only. -/
theorem pieces_nil_iff (hsep : sep ≠ []) :
    Pieces sep s [] ↔ ∃ m, s = (List.replicate m sep).flatten := by
  constructor
  · intro h
    generalize hl : ([] : List (List α)) = l at h
    induction h with
    | nil _ => exact ⟨0, rfl⟩
    | last _ _ => cases hl
    | cut _ _ _ _ => cases hl
    | @skip s _ hk _ ih =>
      obtain ⟨m, hm⟩ := ih hl
      obtain ⟨t, ht⟩ := (find_eq_some_iff.mp hk).1.2
      rw [List.drop_zero] at ht
      refine ⟨m + 1, ?_⟩
      rw [← ht, List.drop_left] at hm
      rw [List.replicate_succ, List.flatten_cons, ← hm, ht]
  · intro h
    obtain ⟨m, rfl⟩ := h
    induction m with
    | zero => exact .nil (find_eq_none_of_short (List.length_pos_iff.mpr hsep))
    | succ m ih =>
      rw [List.replicate_succ, List.flatten_cons]
      refine .skip (find_eq_some_iff.mpr ⟨⟨Nat.zero_le _, List.prefix_append _ _⟩, ?_⟩) ?_
      · intro j hj
        exact absurd hj (Nat.not_lt_zero j)
      · rwa [List.drop_left]

/-- All parts between the occurrences, the empty ones too. -/
inductive Cuts (sep : List α) : List α → List (List α) → Prop
  | last {s : List α} : find sep s = none → Cuts sep s [s]
  | cut {s : List α} {l : List (List α)} {k : Nat} : find sep s = some k →
      Cuts sep (s.drop (k + sep.length)) l → Cuts sep s (s.take k :: l)

theorem Cuts.pieces {l : List (List α)} (h : Cuts sep s l) :
    Pieces sep s (l.filter (· ≠ [])) := by
  induction h with
  | last hnone => exact (pieces_of_none hnone).mpr rfl
  | @cut s l k hk _ ih =>
    refine (pieces_iff_of_find hk).mpr ⟨_, ih, ?_⟩
    rw [← List.filter_append]
    rfl

theorem Cuts.ne_nil {l : List (List α)} (h : Cuts sep s l) : l ≠ [] := by
  cases h <;> simp

/-- The parts with the separator between them are the text. -/
theorem Cuts.intercalate {l : List (List α)} (h : Cuts sep s l) : sep.intercalate l = s := by
  induction h with
  | last _ => exact List.intercalate_singleton
  | @cut s l k hk hrest ih =>
    obtain ⟨t, ht⟩ := (find_eq_some_iff.mp hk).1.2
    rw [List.intercalate_cons_of_ne_nil hrest.ne_nil, ih, ← List.drop_drop, ← ht, List.drop_left,
      List.append_assoc, ht, List.take_append_drop]

end

/-! ## One character as separator -/

section
variable [DecidableEq α] {x : α}

/-- The lines that are read one by one; nothing behind the last line break is no line. -/
def getlines (lineBreak : α) (s : List α) : List (List α) :=
  if (s.splitOn lineBreak).getLast? = some [] then (s.splitOn lineBreak).dropLast
  else s.splitOn lineBreak

theorem find_singleton {a : List α} (h : x ∉ a) (b : List α) :
    find [x] (a ++ x :: b) = some a.length := by
  refine find_eq_some_iff.mpr ⟨⟨by simp, by simp⟩, fun j hj hpre => h ?_⟩
  rw [List.drop_append_of_le_length hj.le, List.drop_eq_getElem_cons hj] at hpre
  rw [(List.cons_prefix_cons.mp hpre).1]
  exact List.getElem_mem hj

theorem find_singleton_none (h : x ∉ s) : find [x] s = none := by
  rw [← Option.not_isSome_iff_eq_none, find_isSome_iff]
  exact fun hin => h (hin.subset List.mem_cons_self)

/-- What is not the separator stands in a part. -/
theorem exists_mem_splitOn {b : α} (hne : b ≠ x) :
    ∀ s : List α, b ∈ s → ∃ part ∈ s.splitOn x, b ∈ part := by
  intro s
  induction s with
  | nil => simp
  | cons c s ih =>
    intro h
    rw [List.splitOn_cons_eq_if_modifyHead]
    obtain ⟨part, parts, hparts⟩ := List.exists_cons_of_ne_nil (List.splitOn_ne_nil x s)
    rw [hparts] at ih ⊢
    rcases List.mem_cons.mp h with rfl | h
    · simp [hne]
    · obtain ⟨found, hfound, hb⟩ := ih h
      split
      · exact ⟨found, List.mem_cons_of_mem _ hfound, hb⟩
      · rw [List.modifyHead_cons]
        rcases List.mem_cons.mp hfound with rfl | hfound
        · exact ⟨c :: found, List.mem_cons_self, List.mem_cons_of_mem c hb⟩
        · exact ⟨found, List.mem_cons_of_mem _ hfound, hb⟩

/-- No piece is empty or holds the separator. -/
theorem Pieces.apart {l : List (List α)} (h : Pieces [x] s l) : ∀ c ∈ l, c ≠ [] ∧ x ∉ c := by
  have hnone : ∀ s : List α, find [x] s = none → x ∉ s := by
    intro s hs hx
    obtain ⟨a, b, rfl, ha⟩ := List.eq_append_cons_of_mem hx
    rw [find_singleton ha] at hs
    cases hs
  induction h with
  | nil _ => simp
  | @last s hs hne =>
    intro c hc
    rw [List.mem_singleton.mp hc]
    exact ⟨hne, hnone s hs⟩
  | skip _ _ ih => exact ih
  | @cut s l k hk hpos _ ih =>
    obtain ⟨⟨hle, -⟩, hfirst⟩ := find_eq_some_iff.mp hk
    intro c hc
    rcases List.mem_cons.mp hc with rfl | hc
    · refine ⟨fun hnil => ?_, fun hx => ?_⟩
      · have hlen := List.length_take_of_le hle
        rw [hnil, List.length_nil] at hlen
        omega
      · obtain ⟨i, hi, hget⟩ := List.mem_take_iff_getElem.mp hx
        refine hfirst i (by omega) ?_
        rw [List.drop_eq_getElem_cons (by omega), hget]
        exact List.prefix_append [x] _
    · exact ih c hc

/-- The pieces are the parts between the separators that are not empty. -/
theorem pieces_singleton (x : α) (s : List α) :
    Pieces [x] s ((s.splitOn x).filter (· ≠ [])) := by
  induction hlen : s.length using Nat.strong_induction_on generalizing s with
  | _ n ih =>
    subst hlen
    by_cases hx : x ∈ s
    · obtain ⟨a, b, rfl, ha⟩ := List.eq_append_cons_of_mem hx
      have hb := ih b.length (by rw [List.length_append, List.length_cons]; omega) b rfl
      have hdrop : (a ++ x :: b).drop (a.length + [x].length) = b := by
        simp [List.drop_append]
      rw [List.splitOn_append_cons_self_of_not_mem ha]
      have hfind := find_singleton ha b
      by_cases hnil : a = []
      · subst hnil
        refine .skip hfind ?_
        simpa using hb
      · have hcut := Pieces.cut hfind (List.length_pos_iff.mpr hnil) (hdrop.symm ▸ hb)
        rw [List.take_left] at hcut
        simpa [hnil] using hcut
    · rw [List.splitOn_eq_singleton hx]
      by_cases hnil : s = []
      · subst hnil
        exact .nil rfl
      · simpa [hnil] using Pieces.last (find_singleton_none hx) hnil

end

/-! ## A separator of equal characters -/

section
variable {x : α} {k : Nat} {c : List α}

/-- A text of one character that does not hold the separator is shorter. -/
theorem lt_of_not_infix_replicate {j : Nat}
    (hno : ¬ List.replicate k x <:+: List.replicate j x) : j < k := by
  by_contra hle
  refine hno ⟨List.replicate (j - k) x, [], ?_⟩
  rw [List.append_nil, List.replicate_append_replicate]
  congr 1
  omega

variable [DecidableEq α]

/-- Behind a text with another end the separator is found where it stands. -/
theorem find_behind (hno : ¬ List.replicate k x <:+: c) (hend : c.getLast? ≠ some x)
    (t : List α) :
    find (List.replicate k x) (c ++ (List.replicate k x ++ t)) = some c.length := by
  refine find_eq_some_iff.mpr ⟨⟨?_, ?_⟩, fun j hj hpre => ?_⟩
  · rw [List.length_append]
    exact Nat.le_add_right _ _
  · rw [List.drop_left]
    exact List.prefix_append _ t
  · by_cases hin : j + (List.replicate k x).length ≤ c.length
    · have hdrop := (prefix_drop_append hin _).mp hpre
      exact hno (hdrop.isInfix.trans (List.drop_suffix j c).isInfix)
    · -- an occurrence over the end of `c` would make this end an `x`
      rw [List.length_replicate] at hin
      refine hend ?_
      have hat : (List.replicate k x)[c.length - 1 - j]? = some x :=
        List.getElem?_replicate_of_lt (by omega)
      obtain ⟨r, hr⟩ := hpre
      have hget : (List.replicate k x ++ r)[c.length - 1 - j]? = some x :=
        (List.getElem?_append_left (by rw [List.length_replicate]; omega)).trans hat
      rw [hr, List.getElem?_drop, List.getElem?_append_left (by omega)] at hget
      rw [List.getLast?_eq_getElem?, ← hget]
      congr 1
      omega

/-- A run of `x` begins with the separator or is too short for it. -/
theorem find_replicate {j : Nat} (hjk : k ≤ j) :
    find (List.replicate k x) (List.replicate j x) = some 0 := by
  refine find_eq_some_iff.mpr ⟨⟨Nat.zero_le _, ?_⟩, fun i hi => absurd hi (Nat.not_lt_zero i)⟩
  refine ⟨List.replicate (j - k) x, ?_⟩
  rw [List.replicate_append_replicate, List.drop_zero]
  congr 1
  omega

/-- No text ends in `x`, except that the last one may be of `x` only. -/
def Apart (x : α) (l : List (List α)) : Prop :=
  (∀ c ∈ l.dropLast, c.getLast? ≠ some x) ∧
    ∀ c ∈ l.getLast?, c.getLast? = some x → ∀ y ∈ c, y = x

/-- The pieces in front of an occurrence do not end in `x`; only the rest may. -/
theorem Pieces.ends {l : List (List α)} (h : Pieces (List.replicate k x) s l) :
    (∀ c ∈ l, c.getLast? ≠ some x) ∨ ∃ l' t, l = l' ++ [t] ∧ (∀ c ∈ l', c.getLast? ≠ some x) ∧
      t <:+ s ∧ find (List.replicate k x) t = none := by
  generalize hsep : List.replicate k x = sep at h
  induction h with
  | nil _ => exact .inl fun c hc => absurd hc List.not_mem_nil
  | @last s hnone _ =>
    exact .inr ⟨[], s, rfl, fun c hc => absurd hc List.not_mem_nil, List.suffix_rfl, hnone⟩
  | skip _ _ ih =>
    refine ih.imp_right ?_
    rintro ⟨l', t, hl, hends, hsuf, hnone⟩
    exact ⟨l', t, hl, hends, hsuf.trans (List.drop_suffix _ _), hnone⟩
  | @cut s l i hk hpos _ ih =>
    subst hsep
    obtain ⟨⟨hi, hp⟩, hfirst⟩ := find_eq_some_iff.mp hk
    have hend : (s.take i).getLast? ≠ some x := by
      intro hx
      -- with an `x` in front the separator stands one place earlier
      refine hfirst (i - 1) (by omega) ?_
      rw [List.getLast?_eq_getElem?, List.length_take_of_le hi,
        List.getElem?_take_of_lt (by omega)] at hx
      obtain ⟨hlt, hget⟩ := List.getElem?_eq_some_iff.mp hx
      rw [List.drop_eq_getElem_cons hlt, hget, Nat.sub_add_cancel hpos]
      obtain ⟨t, ht⟩ := hp
      rw [← ht, ← List.cons_append, ← List.replicate_succ, List.replicate_succ', List.append_assoc]
      exact List.prefix_append _ _
    rcases ih with hall | ⟨l', t, hl, hends, hsuf, hnone⟩
    · refine .inl fun c hc => ?_
      rcases List.mem_cons.mp hc with rfl | hc
      · exact hend
      · exact hall c hc
    · refine .inr ⟨s.take i :: l', t, by rw [hl, List.cons_append], fun c hc => ?_,
        hsuf.trans (List.drop_suffix _ _), hnone⟩
      rcases List.mem_cons.mp hc with rfl | hc
      · exact hend
      · exact hends c hc

/-- One text of `x` only is found again behind the last separator. -/
theorem pieces_replicate {j : Nat} (hj : 0 < j) (hjk : j < k) :
    Pieces (List.replicate k x) (List.replicate j x ++ List.replicate k x)
      [List.replicate j x] := by
  rw [List.replicate_append_replicate]
  refine .skip (find_replicate (Nat.le_add_left k j)) ?_
  rw [List.length_replicate, List.drop_replicate, Nat.add_sub_cancel]
  refine .last (find_eq_none_of_short ?_) fun hnil => ?_
  · rw [List.length_replicate, List.length_replicate]
    exact hjk
  · have hlen := congrArg List.length hnil
    rw [List.length_replicate, List.length_nil] at hlen
    exact absurd hlen (Nat.ne_of_gt hj)

theorem pieces_pack (hk : 0 < k) : ∀ {l : List (List α)},
    (∀ c ∈ l, c ≠ [] ∧ ¬ List.replicate k x <:+: c) → Apart x l →
      Pieces (List.replicate k x) (pack (List.replicate k x) l) l := by
  intro l
  induction l with
  | nil =>
    intro _ _
    exact .nil (find_eq_none_of_short (by rw [List.length_replicate]; exact hk))
  | cons c l ih =>
    intro hl hapart
    obtain ⟨hne, hno⟩ := hl c List.mem_cons_self
    by_cases hend : c.getLast? = some x
    · -- only the last text may end in `x`, and then it has nothing else
      cases l with
      | cons d l => exact absurd hend (hapart.1 c List.mem_cons_self)
      | nil =>
        have hall := hapart.2 c rfl hend
        rw [List.eq_replicate_length.mpr hall] at hno
        rw [pack_cons, pack, List.flatMap_nil, List.append_nil]
        have hpieces := pieces_replicate (x := x) (List.length_pos_iff.mpr hne)
          (lt_of_not_infix_replicate hno)
        rwa [← List.eq_replicate_length.mpr hall] at hpieces
    · have hfind := find_behind hno hend (pack (List.replicate k x) l)
      have hrest : Apart x l := by
        cases l with
        | nil => exact ⟨fun d hd => absurd hd List.not_mem_nil, fun d hd => by cases hd⟩
        | cons d l => exact ⟨fun e he => hapart.1 e (List.mem_cons_of_mem c he), hapart.2⟩
      have hcut := Pieces.cut (l := l) hfind (List.length_pos_iff.mpr hne)
      rw [List.take_left, ← List.drop_drop, List.drop_left, List.drop_left] at hcut
      rw [pack_cons, List.append_assoc]
      exact hcut (ih (fun d hd => hl d (List.mem_cons_of_mem c hd)) hrest)

/-- **What was packed is found again exactly when the ends keep apart from the separator.** -/
theorem pieces_pack_iff (hk : 0 < k) {l : List (List α)}
    (hl : ∀ c ∈ l, c ≠ [] ∧ ¬ List.replicate k x <:+: c) :
    Pieces (List.replicate k x) (pack (List.replicate k x) l) l ↔ Apart x l := by
  constructor
  · intro h
    rcases h.ends with hall | ⟨l', t, rfl, hends, hsuf, hnone⟩
    · exact ⟨fun c hc => hall c (List.dropLast_subset l hc),
        fun c hc hend => absurd hend (hall c (List.mem_of_getLast? hc))⟩
    · rw [Apart, List.dropLast_concat, List.getLast?_concat]
      refine ⟨hends, fun c hc _ y hy => ?_⟩
      obtain rfl := Option.some.inj hc
      -- the rest ends where the text ends, in the separator
      have hsep := sep_suffix_pack (List.replicate k x) (List.append_ne_nil_of_right_ne_nil l'
        (List.cons_ne_nil t []))
      rcases List.suffix_or_suffix_of_suffix hsuf hsep with hin | hout
      · exact List.eq_of_mem_replicate (hin.subset hy)
      · have hmem := hl t (List.mem_append_right l' List.mem_cons_self)
        exact absurd hout.isInfix hmem.2
  · exact pieces_pack hk hl

end

end CommonTools.Lib
