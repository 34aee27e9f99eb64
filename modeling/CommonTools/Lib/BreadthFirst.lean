import CommonTools.Lib.SuffixChain

/-! # Breadth first through a prefix-closed language

A queue starts with the empty word. Its head leaves it, and the words of the
language with one letter more join it at the end. -/
namespace CommonTools.Lib

variable {α : Type}

/-- The words that left the queue and those that are in it. The queue never
falls in length and spans at most two levels, so all shorter words have left
it. -/
structure Frontier (S visited pending : List (List α)) : Prop where
  nodup : (visited ++ pending).Nodup
  sub : ∀ w ∈ visited ++ pending, w ∈ S
  root : [] ∈ visited ++ pending
  children : ∀ w ∈ visited, ∀ c, w ++ [c] ∈ S → w ++ [c] ∈ visited ++ pending
  parents : ∀ w c, w ++ [c] ∈ visited ++ pending → w ∈ visited
  rising : pending.Pairwise fun u v => u.length ≤ v.length
  spread : ∀ u ∈ pending, ∀ v ∈ pending, v.length ≤ u.length + 1

variable {S visited pending rest : List (List α)} {v : List α}

theorem frontier_start (h : [] ∈ S) : Frontier S [] [[]] :=
  ⟨by simp, by simpa using h, by simp, by simp, by simp, by simp, by simp⟩

namespace Frontier

/-- Words no longer than the head of the queue have been seen. -/
theorem seen (h : Frontier S visited (v :: rest)) (hc : PrefixClosed S) (w : List α) :
    w ∈ S → w.length ≤ v.length → w ∈ visited ++ (v :: rest) := by
  induction w using List.reverseRecOn with
  | nil => exact fun _ _ => h.root
  | append_singleton u c ih =>
    intro hin hlen
    rw [List.length_append, List.length_singleton] at hlen
    have hu : u ∈ visited := by
      rcases List.mem_append.mp (ih (hc.init u c hin) (by omega)) with hu | hu
      · exact hu
      · -- nothing in the queue is shorter than its head
        rcases List.mem_cons.mp hu with rfl | hu
        · omega
        · have := List.rel_of_pairwise_cons h.rising hu
          omega
    exact h.children u hu c hin

theorem visited_of_lt (h : Frontier S visited (v :: rest)) (hc : PrefixClosed S) {w : List α}
    (hw : w ∈ S) (hlt : w.length < v.length) : w ∈ visited := by
  rcases List.mem_append.mp (h.seen hc w hw (Nat.le_of_lt hlt)) with hin | hin
  · exact hin
  · rcases List.mem_cons.mp hin with rfl | hin
    · omega
    · have := List.rel_of_pairwise_cons h.rising hin
      omega

theorem seen_all (h : Frontier S visited []) (hc : PrefixClosed S) (w : List α) :
    w ∈ S → w ∈ visited := by
  induction w using List.reverseRecOn with
  | nil => exact fun _ => by simpa using h.root
  | append_singleton u c ih =>
    exact fun hin => by simpa using h.children u (ih (hc.init u c hin)) c hin

/-- The head of the queue is visited and its children are queued. -/
theorem step (h : Frontier S visited (v :: rest)) {kids : List (List α)} (hnodup : kids.Nodup)
    (hkids : ∀ w, w ∈ kids ↔ ∃ c, w = v ++ [c] ∧ v ++ [c] ∈ S) :
    Frontier S (visited ++ [v]) (rest ++ kids) := by
  have hsplit : ∀ w, w ∈ visited ++ [v] ++ (rest ++ kids) ↔
      w ∈ visited ++ (v :: rest) ∨ w ∈ kids := fun w => by simp [or_assoc]
  have hvnot : v ∉ visited := fun hv =>
    (List.nodup_append.mp h.nodup).2.2 v hv v List.mem_cons_self rfl
  have hlen : ∀ w ∈ kids, w.length = v.length + 1 := fun w hw => by
    obtain ⟨c, rfl, -⟩ := (hkids w).mp hw
    simp
  have hhead : ∀ u ∈ rest, v.length ≤ u.length := fun u hu =>
    List.rel_of_pairwise_cons h.rising hu
  refine ⟨?_, fun w hw => ?_, ?_, fun w hw c hin => ?_, fun w c hw => ?_, ?_, ?_⟩
  · have hold : (visited ++ [v] ++ rest).Nodup := by simpa using h.nodup
    rw [← List.append_assoc, List.nodup_append]
    refine ⟨hold, hnodup, fun a ha b hb hab => ?_⟩
    obtain ⟨c, rfl, -⟩ := (hkids b).mp hb
    subst hab
    exact hvnot (h.parents v c (by simpa using ha))
  · rcases (hsplit w).mp hw with hw | hw
    · exact h.sub w hw
    · obtain ⟨c, rfl, hin⟩ := (hkids w).mp hw
      exact hin
  · exact (hsplit []).mpr (.inl h.root)
  · rw [hsplit]
    rcases List.mem_append.mp hw with hw | hw
    · exact .inl (h.children w hw c hin)
    · rw [List.mem_singleton.mp hw] at hin ⊢
      exact .inr ((hkids _).mpr ⟨c, rfl, hin⟩)
  · rcases (hsplit _).mp hw with hw | hw
    · exact List.mem_append_left _ (h.parents w c hw)
    · obtain ⟨d, he, -⟩ := (hkids _).mp hw
      rw [(List.append_inj' he rfl).1]
      simp
  · refine List.pairwise_append.mpr ⟨(List.pairwise_cons.mp h.rising).2, ?_, fun u hu w hw => ?_⟩
    · exact List.pairwise_of_forall_mem_list fun a ha b hb => by rw [hlen a ha, hlen b hb]
    · rw [hlen w hw]
      exact h.spread v List.mem_cons_self u (List.mem_cons_of_mem v hu)
  · intro u hu w hw
    rcases List.mem_append.mp hu with hu | hu <;> rcases List.mem_append.mp hw with hw | hw
    · exact h.spread u (List.mem_cons_of_mem v hu) w (List.mem_cons_of_mem v hw)
    · rw [hlen w hw]; exact Nat.succ_le_succ (hhead u hu)
    · have := h.spread v List.mem_cons_self w (List.mem_cons_of_mem v hw)
      rw [hlen u hu]; omega
    · rw [hlen u hu, hlen w hw]; omega

/-- A language of `n` words leaves the queue in at most `n` rounds. -/
theorem room (h : Frontier S visited (v :: rest)) : visited.length < S.length := by
  have hle := (List.subperm_of_subset h.nodup h.sub).length_le
  rw [List.length_append, List.length_cons] at hle
  omega

end Frontier

end CommonTools.Lib
