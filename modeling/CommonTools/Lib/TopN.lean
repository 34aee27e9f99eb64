import Mathlib.Data.Finset.Sort

/-! # The largest elements of a set

`K` holds the `n` largest elements of `s`, or all when there are fewer. It is
kept up to date element by element, by looking at its smallest member only. -/
namespace CommonTools.Lib

variable {α : Type} [LinearOrder α]

structure IsTop (n : Nat) (s K : Finset α) : Prop where
  subset : K ⊆ s
  card : K.card = min n s.card
  above : ∀ x ∈ K, ∀ y ∈ s, y ∉ K → y < x

variable {n : Nat} {s K : Finset α} {t : α}

theorem IsTop.empty (n : Nat) : IsTop n (∅ : Finset α) ∅ := ⟨fun _ h => h, by simp, by simp⟩

/-- As long as there is room, everything is kept. -/
theorem IsTop.eq_of_lt (h : IsTop n s K) (hlt : K.card < n) : K = s :=
  Finset.eq_of_subset_of_card_le h.subset (by have hcard := h.card; omega)

theorem IsTop.again (h : IsTop n s K) (ht : t ∈ K) : IsTop n (insert t s) K := by
  rwa [Finset.insert_eq_self.mpr (h.subset ht)]

theorem IsTop.add (h : IsTop n s K) (hlt : K.card < n) : IsTop n (insert t s) (insert t K) := by
  obtain rfl := h.eq_of_lt hlt
  have hle := Finset.card_insert_le t K
  exact ⟨fun _ hx => hx, by omega, fun x _ y hy hny => absurd hy hny⟩

/-- An element that is not above the smallest one is left out. -/
theorem IsTop.skip (h : IsTop n s K) (hfull : K.card = n) {m : α} (hmin : ∀ x ∈ K, m ≤ x)
    (ht : t ≤ m) : IsTop n (insert t s) K := by
  by_cases hmem : t ∈ K
  · exact h.again hmem
  · have hlt : ∀ x ∈ K, t < x := fun x hx =>
      lt_of_le_of_ne (ht.trans (hmin x hx)) fun he => hmem (he ▸ hx)
    have hle := Finset.card_le_card (Finset.subset_insert t s)
    have hcard := h.card
    refine ⟨h.subset.trans (Finset.subset_insert t s), by omega, fun x hx y hy hny => ?_⟩
    rcases Finset.mem_insert.mp hy with rfl | hy
    · exact hlt x hx
    · exact h.above x hx y hy hny

/-- An element above the smallest one takes its place. -/
theorem IsTop.replace (h : IsTop n s K) (hfull : K.card = n) {m : α} (hm : m ∈ K)
    (hmin : ∀ x ∈ K, m ≤ x) (ht : t ∉ K) (hlt : m < t) :
    IsTop n (insert t s) (insert t (K.erase m)) := by
  have hpos : 0 < K.card := Finset.card_pos.mpr ⟨m, hm⟩
  have hnot : t ∉ K.erase m := fun he => ht (Finset.mem_of_mem_erase he)
  have hle := Finset.card_le_card (Finset.subset_insert t s)
  have hcard := h.card
  refine ⟨?_, ?_, fun x hx y hy hny => ?_⟩
  · exact Finset.insert_subset_insert t ((Finset.erase_subset m K).trans h.subset)
  · rw [Finset.card_insert_of_notMem hnot, Finset.card_erase_of_mem hm]
    omega
  · have hmx : m < x := by
      rcases Finset.mem_insert.mp hx with rfl | hx
      · exact hlt
      · exact lt_of_le_of_ne (hmin x (Finset.mem_of_mem_erase hx)) fun he =>
          Finset.ne_of_mem_erase hx he.symm
    rcases Finset.mem_insert.mp hy with rfl | hy
    · exact absurd (Finset.mem_insert_self y _) hny
    · by_cases hyK : y ∈ K
      · have hym : y = m := by
          by_contra hne
          exact hny (Finset.mem_insert_of_mem (Finset.mem_erase.mpr ⟨hne, hyK⟩))
        rwa [hym]
      · exact (h.above m hm y hy hyK).trans hmx

/-- In order, the largest elements are the end of the whole row. -/
theorem IsTop.sort_eq (h : IsTop n s K) {l : List α} (hsorted : l.Pairwise (· ≤ ·))
    (hnd : l.Nodup) (hl : l.toFinset = K) : l = s.sort.drop (s.card - n) := by
  have hall : (s \ K).sort ++ l = s.sort := by
    refine List.Perm.eq_of_pairwise' ?_ (Finset.pairwise_sort s _) ?_
    · refine List.pairwise_append.mpr ⟨Finset.pairwise_sort _ _, hsorted, fun y hy x hx => ?_⟩
      obtain ⟨hys, hyK⟩ := Finset.mem_sdiff.mp ((Finset.mem_sort _).mp hy)
      exact (h.above x (hl ▸ List.mem_toFinset.mpr hx) y hys hyK).le
    · refine (List.perm_ext_iff_of_nodup ?_ (Finset.sort_nodup _ _)).mpr fun x => ?_
      · refine List.nodup_append.mpr ⟨Finset.sort_nodup _ _, hnd, fun y hy x hx he => ?_⟩
        have hyK := (Finset.mem_sdiff.mp ((Finset.mem_sort _).mp hy)).2
        exact hyK (hl ▸ List.mem_toFinset.mpr (he ▸ hx))
      · have hlx : x ∈ l ↔ x ∈ K := by rw [← hl, List.mem_toFinset]
        rw [List.mem_append, Finset.mem_sort, Finset.mem_sort, Finset.mem_sdiff, hlx]
        constructor
        · rintro (hx | hx)
          · exact hx.1
          · exact h.subset hx
        · intro hx
          by_cases hxK : x ∈ K
          · exact .inr hxK
          · exact .inl ⟨hx, hxK⟩
  have hlen : (s \ K).sort.length = s.card - n := by
    have hcard := h.card
    rw [Finset.length_sort, Finset.card_sdiff_of_subset h.subset]
    omega
  rw [← hall, ← hlen, List.drop_left]

end CommonTools.Lib
