import CommonTools.DartsClone.EmptyKeys
import CommonTools.DartsClone.ExactMatch

/-! # The prefixes of a query

The marks of the nodes say where keys end. A search that goes down the trie meets each key that
is a prefix of the query: at a mark, or at the leaf where it ends. -/
namespace CommonTools.DartsClone
open CommonTools.Lib

/-! ## Results -/

/-- What is returned for all results. -/
def collect (max_num_of_results : Nat) (l : List (Int × Nat)) : Results :=
  ⟨l.take max_num_of_results, l.length⟩

/-- The prefixes of `v ++ t` from `v` on that `look` knows, the shortest one first. -/
def prefixesFrom (look : Bytes → Option Int) : Bytes → Bytes → List (Int × Nat)
  | v, [] => ((look v).map fun x => (x, v.length)).toList
  | v, c :: t => ((look v).map fun x => (x, v.length)).toList ++ prefixesFrom look (v ++ [c]) t

section
variable {look : Bytes → Option Int} {t : Bytes}

theorem prefixesFrom_eq_range : ∀ {t v : Bytes}, prefixesFrom look v t =
    (List.range (t.length + 1)).filterMap fun n =>
      (look (v ++ t.take n)).map fun x => (x, v.length + n)
  | [], v => by
    rw [prefixesFrom, List.length_nil, List.range_one]
    cases hv : look v <;> simp [hv]
  | c :: t, v => by
    rw [prefixesFrom, prefixesFrom_eq_range, List.length_cons, List.range_succ_eq_map (n := t.length + 1),
      List.filterMap_cons, List.filterMap_map]
    have hrest : (fun n => (look (v ++ [c] ++ t.take n)).map fun x => (x, (v ++ [c]).length + n)) =
        (fun n => (look (v ++ (c :: t).take n)).map fun x => (x, v.length + n)) ∘ Nat.succ := by
      funext n
      simp [Nat.add_assoc, Nat.add_comm 1]
    rw [hrest]
    cases hv : look v <;> simp [hv]

theorem prefixesFrom_nil : ∀ {t v : Bytes}, (∀ s, s <+: t → look (v ++ s) = none) →
    prefixesFrom look v t = []
  | [], v, h => by
    have hv := h [] List.nil_prefix
    rw [List.append_nil] at hv
    rw [prefixesFrom, hv]
    rfl
  | c :: t, v, h => by
    have hv := h [] List.nil_prefix
    rw [List.append_nil] at hv
    rw [prefixesFrom, hv, prefixesFrom_nil fun s hs => ?_]
    · rfl
    · rw [List.append_assoc]
      exact h (c :: s) (List.cons_prefix_cons.mpr ⟨rfl, hs⟩)

theorem prefixesFrom_single {x : Int} : ∀ {s t v : Bytes}, s <+: t → look (v ++ s) = some x →
    (∀ s', s' <+: t → s' ≠ s → look (v ++ s') = none) →
    prefixesFrom look v t = [(x, (v ++ s).length)]
  | [], t, v, _, hx, h => by
    rw [List.append_nil] at hx ⊢
    cases t with
    | nil =>
      rw [prefixesFrom, hx]
      rfl
    | cons c t =>
      rw [prefixesFrom, hx, prefixesFrom_nil fun s hs => ?_]
      · rfl
      · rw [List.append_assoc]
        exact h (c :: s) (List.cons_prefix_cons.mpr ⟨rfl, hs⟩) (List.cons_ne_nil c s)
  | d :: s, [], _, hp, _, _ => absurd (List.prefix_nil.mp hp) (List.cons_ne_nil d s)
  | d :: s, c :: t, v, hp, hx, h => by
    obtain ⟨rfl, hst⟩ := List.cons_prefix_cons.mp hp
    have hv := h [] List.nil_prefix (Ne.symm (List.cons_ne_nil d s))
    rw [List.append_nil] at hv
    have hcat : ∀ w : Bytes, v ++ d :: w = v ++ [d] ++ w := fun w => by simp
    rw [hcat] at hx
    rw [prefixesFrom, hv, prefixesFrom_single hst hx fun s' hs' hne => ?_, ← hcat]
    · rfl
    · rw [← hcat]
      exact h (d :: s') (List.cons_prefix_cons.mpr ⟨rfl, hs'⟩) fun he => hne (List.cons.inj he).2

end

section
variable {units_ : List (BitVec 32)} {max_num_of_results : Nat}

theorem add_collect {l : List (Int × Nat)} {tail length : Nat} {value : BitVec 32}
    (h : getValue units_ tail = some value) :
    (collect max_num_of_results l).add units_ max_num_of_results tail length =
      some (collect max_num_of_results (l ++ [(value.toInt, length)])) := by
  rw [Results.add, collect, collect, List.length_append, List.length_singleton]
  by_cases hlt : l.length < max_num_of_results
  · rw [if_pos hlt, h]
    rw [List.take_of_length_le (Nat.le_of_lt hlt), List.take_of_length_le]
    · rfl
    · rw [List.length_append, List.length_singleton]
      exact hlt
  · rw [if_neg hlt, List.take_append_of_le_length (Nat.not_lt.mp hlt)]

/-- Where the comparison of a suffix ends. -/
theorem suffixLoop_ok : ∀ {xs ys : Bytes} {tail length : Nat}, NulFree xs → NulFree ys →
    Stored units_ tail (xs ++ [0]) →
    ∃ b tail' length', suffixLoop units_ (ys ++ [0]) tail length = some (b, tail', length') ∧
      (b = 0 ↔ xs <+: ys) ∧ (b = 0 → tail' = tail + xs.length ∧ length' = length + xs.length)
  | [], ys, tail, length, _, _, hs => by
    have h0 := hs 0 0 rfl
    rw [Nat.add_zero] at h0
    obtain ⟨c, rest, hc⟩ : ∃ c rest, ys ++ [0] = c :: rest := List.exists_cons_of_ne_nil (by simp)
    refine ⟨0, tail, length, ?_, iff_of_true rfl List.nil_prefix, fun _ => ⟨rfl, rfl⟩⟩
    rw [hc, suffixLoop, h0]
    rfl
  | x :: xs, [], tail, length, hx, _, hs => by
    have h0 := hs 0 x rfl
    rw [Nat.add_zero] at h0
    have hne := hx x List.mem_cons_self
    refine ⟨x, tail, length, ?_, iff_of_false hne fun hp => ?_, fun hz => absurd hz hne⟩
    · rw [List.nil_append, suffixLoop, h0]
      simp
    · exact absurd (List.prefix_nil.mp hp) (List.cons_ne_nil x xs)
  | x :: xs, y :: ys, tail, length, hx, hy, hs => by
    have h0 := hs 0 x rfl
    rw [Nat.add_zero] at h0
    have hne := hx x List.mem_cons_self
    have hrest : Stored units_ (tail + 1) (xs ++ [0]) :=
      (Stored.append_iff.mp (show Stored units_ tail ([x] ++ (xs ++ [0])) from hs)).2
    rw [List.cons_append, suffixLoop, h0]
    by_cases hxy : x = y
    · obtain ⟨b, tail', length', hrun, hb, hplace⟩ := @suffixLoop_ok xs ys (tail + 1) (length + 1)
        (fun b hb => hx b (List.mem_cons_of_mem x hb)) (fun b hb => hy b (List.mem_cons_of_mem y hb))
        hrest
      refine ⟨b, tail', length', ?_, ?_, fun hz => ?_⟩
      · simpa [hxy ▸ hne, hxy] using hrun
      · rw [hb, List.cons_prefix_cons]
        exact (and_iff_right hxy).symm
      · obtain ⟨htail, hlen⟩ := hplace hz
        rw [htail, hlen, List.length_cons]
        omega
    · refine ⟨x, tail, length, ?_, iff_of_false hne fun hp => ?_, fun hz => absurd hz hne⟩
      · simp [hxy]
      · exact hxy (List.cons_prefix_cons.mp hp).1

end

/-! ## Keys -/

def valueOf (keys_ : List DoubleArrayKey) (w : Bytes) : Option Int :=
  (keys_.find? fun k => k.text = w).map fun k => k.value.toInt

section
variable {keys_ leaves : List DoubleArrayKey} {owner : Nat → Option (Option Bytes)}
  {units₀ units_ : List (BitVec 32)} {room p max_num_of_results : Nat} {v w : Bytes} {c : UInt8}

theorem valueOf_none (h : ∀ k ∈ keys_, k.text ≠ w) : valueOf keys_ w = none := by
  rw [valueOf, List.find?_eq_none.mpr fun k hk => by simpa using h k hk]
  rfl

theorem valueOf_text (hkeys : Keys keys_) {k : DoubleArrayKey} (hk : k ∈ keys_) :
    valueOf keys_ k.text = some k.value.toInt := by
  cases hfound : keys_.find? fun k' => k'.text = k.text with
  | none =>
    have hno := List.find?_eq_none.mp hfound k hk
    exact absurd (decide_eq_true rfl) hno
  | some k' =>
    have htext := of_decide_eq_true (List.find?_some hfound :)
    rw [valueOf, hfound, hkeys.full_inj (List.mem_of_find?_eq_some hfound) hk
      (congrArg (· ++ [0]) htext)]
    rfl

theorem has_of_text {k : DoubleArrayKey} (hk : k ∈ keys_) {s : Bytes}
    (htext : k.text ++ [0] = v ++ c :: s) : Has keys_ (some v) c :=
  ⟨k, hk, s, by rw [DoubleArrayKey.full, htext, List.append_assoc, List.singleton_append]⟩

/-- A leaf says whether its suffix is a prefix of the rest of the query. -/
theorem leaf_ok {tail_ bound : Nat} {u : BitVec 32} {k : DoubleArrayKey}
    (hlinked : Linked units_ tail_ bound u k) (hvalid : k.Valid) {y : Bytes} (hy : NulFree y)
    (l : List (Int × Nat)) (length : Nat) :
    (collect max_num_of_results l).leaf units_ tail_ max_num_of_results u (y ++ [0]) length =
      some (collect max_num_of_results (l ++
        if k.text.drop k.moved <+: y ∧ (k.text.drop k.moved = [] → y = []) then
          [(k.value.toInt, length + (k.text.drop k.moved).length)]
        else [])) := by
  have hfree : NulFree (k.text.drop k.moved) := hvalid.nulFree.drop _
  have hsuffix := hlinked.suffix
  have hvalue := hlinked.value
  rw [hvalid.key_] at hsuffix hvalue
  generalize k.text.drop k.moved = s at hfree hsuffix hvalue ⊢
  obtain ⟨b, rest, hb⟩ : ∃ b rest, s ++ [0] = b :: rest := List.exists_cons_of_ne_nil (by simp)
  obtain ⟨c, rest', hc⟩ : ∃ c rest, y ++ [0] = c :: rest := List.exists_cons_of_ne_nil (by simp)
  have hbyte : byteAt units_ (tail_ + link u) = some b := by
    have h0 := hsuffix 0 b (by rw [hb]; rfl)
    rwa [Nat.add_zero] at h0
  have hempty : ∀ {x : Bytes} {d : UInt8} {r : Bytes}, NulFree x → x ++ [0] = d :: r →
      (x = [] ↔ d = 0) := by
    intro x d r hx hcons
    cases x with
    | nil => exact iff_of_true rfl (List.cons.inj hcons).1.symm
    | cons a x =>
      refine iff_of_false (List.cons_ne_nil a x) ?_
      rw [← (List.cons.inj hcons).1]
      exact hx a List.mem_cons_self
  rw [Results.leaf, hbyte]
  simp only [Option.bind_eq_bind, Option.bind_some]
  by_cases hbc : c = b
  · obtain ⟨b', tail', length', hrun, hb', hplace⟩ := @suffixLoop_ok units_ s y (tail_ + link u) length
      hfree hy hsuffix
    have hfound : (s <+: y ∧ (s = [] → y = [])) ↔ b' = 0 := by
      rw [hb']
      refine and_iff_left_of_imp fun _ hs => ?_
      rw [hempty hy hc, hbc]
      exact (hempty hfree hb).mp hs
    rw [if_neg (by rw [hc, hbc]; simp), hrun]
    simp only [Option.bind_some, hfound]
    by_cases hz : b' = 0
    · obtain ⟨htail, hlen⟩ := hplace hz
      rw [if_pos hz, if_pos hz, hlen]
      refine add_collect ?_
      have hat : tail' + (4 * valueId u + 1) =
          tail_ + link u + (s ++ [0]).length + 4 * valueId u := by
        rw [htail, List.length_append, List.length_singleton]
        omega
      rw [hat]
      exact getValue_ok hvalue
    · rw [if_neg hz, if_neg hz, List.append_nil]
  · have hno : ¬ (s <+: y ∧ (s = [] → y = [])) := by
      rintro ⟨⟨t, rfl⟩, hs⟩
      refine hbc ?_
      cases s with
      | nil =>
        have hy := hs rfl
        rw [hy] at hc
        exact (List.cons.inj hc).1.symm.trans (List.cons.inj hb).1
      | cons x s => exact (List.cons.inj hc).1.symm.trans (List.cons.inj hb).1
    rw [if_pos (by rw [hc]; simpa using hbc), if_neg hno, List.append_nil]

namespace Dictionary

/-- A node with the mark stands for a key. -/
theorem isEnd_iff (h : Dictionary keys_ owner units₀ leaves room units_)
    (hp : Inner keys_ owner units₀ leaves p v) :
    isEnd (unitAt units₀ p) = true ↔ Has keys_ (some v) 0 := by
  rw [h.built.ends]
  constructor
  · rintro ⟨w, hw, hhas, -⟩
    rwa [hw.unique h.built.table h.built.root hp.node] at hhas
  · exact fun hhas => ⟨v, hp.node, hhas, hp.inner⟩

theorem valueOf_of_not_has (h : ¬ Has keys_ (some v) 0) : valueOf keys_ v = none :=
  valueOf_none fun _ hk htext => h (has_of_text hk (by rw [htext]))

/-- The key of a node is found through the leaf below it. -/
theorem extract_ok (h : Dictionary keys_ owner units₀ leaves room units_)
    (hp : Inner keys_ owner units₀ leaves p v) (hc : c ≠ 0) (l : List (Int × Nat)) :
    (collect max_num_of_results l).extract units_ (4 * units₀.length) max_num_of_results c p
        v.length =
      some (collect max_num_of_results
        (l ++ ((valueOf keys_ v).map fun x => (x, v.length)).toList)) := by
  rw [Results.extract, h.get_inner hp]
  simp only [Option.bind_eq_bind, Option.bind_some]
  by_cases hend : isEnd (unitAt units₀ p) = true
  · rw [if_pos ⟨hc, hend⟩]
    obtain ⟨k, hk, hpre⟩ := (h.isEnd_iff hp).mp hend
    have htext : v = k.text := full_prefix (h.keys.nulFree k hk) hpre
    obtain ⟨u, hu, hcases⟩ := h.next_unit hp 0
    rcases hcases with ⟨-, k', hk', hi, bound, hlinked⟩ | ⟨-, -, hno⟩ | ⟨-, -, hinner⟩
    · obtain ⟨k₁, hbehind⟩ := h.behind hp hk' hi
      obtain ⟨rfl, hhead⟩ := hbehind.only k hk hpre
      have hkey : k'.key_ = [0] := by
        have hfull := hbehind.full hhead
        rw [DoubleArrayKey.full, ← htext] at hfull
        exact (List.append_cancel_left hfull).symm
      have hvalue := hlinked.value
      have hzero : (0 : UInt8).toNat = 0 := rfl
      rw [hzero, Nat.xor_zero] at hu
      rw [hkey, hbehind.value] at hvalue
      rw [hu, htext, valueOf_text h.keys hk]
      refine add_collect (getValue_ok ?_)
      have hat : 4 * units₀.length + link u + (4 * valueId u + 1) =
          4 * units₀.length + link u + [(0 : UInt8)].length + 4 * valueId u := by
        rw [List.length_singleton]
        omega
      rw [hat]
      exact hvalue
    · exact absurd ⟨k, hk, hpre⟩ hno
    · exact (h.not_full hinner).elim
  · rw [if_neg fun hboth => hend hboth.2,
      valueOf_of_not_has fun hhas => hend ((h.isEnd_iff hp).mpr hhas)]
    simp

/-- Below a leaf there is its key or nothing. -/
theorem prefixes_at_leaf (h : Dictionary keys_ owner units₀ leaves room units_)
    {k k₁ : DoubleArrayKey} (hbehind : Behind keys_ v c k k₁) (hc : c ≠ 0) (t : Bytes) :
    prefixesFrom (valueOf keys_) (v ++ [c]) t =
      if k.text.drop k.moved <+: c :: t ∧ (k.text.drop k.moved = [] → c :: t = []) then
        [(k.value.toInt, v.length + (k.text.drop k.moved).length)]
      else [] := by
  have hkey := hbehind.valid.key_
  generalize k.text.drop k.moved = s at hkey ⊢
  -- a key that continues with `c` is the one of the leaf
  have honly : ∀ {s' : Bytes} {k' : DoubleArrayKey}, k' ∈ keys_ → k'.text = v ++ [c] ++ s' →
      k' = k₁ ∧ s = c :: s' := by
    intro s' k' hk' htext
    have hpre : v ++ [c] <+: k'.full := ⟨s' ++ [0], by rw [DoubleArrayKey.full, htext]; simp⟩
    obtain ⟨rfl, hhead⟩ := hbehind.only k' hk' hpre
    have hfull := hbehind.full hhead
    rw [DoubleArrayKey.full, htext, hkey] at hfull
    refine ⟨rfl, ?_⟩
    have hcancel : v ++ (c :: s' ++ [0]) = v ++ (s ++ [0]) := by simpa using hfull
    exact (List.append_cancel_right (List.append_cancel_left hcancel)).symm
  have hnone : ∀ {s' : Bytes}, s ≠ c :: s' → valueOf keys_ (v ++ [c] ++ s') = none := fun hne =>
    valueOf_none fun k' hk' htext => hne (honly hk' htext).2
  by_cases hfound : s <+: c :: t ∧ (s = [] → c :: t = [])
  · rw [if_pos hfound]
    cases s with
    | nil => exact absurd (hfound.2 rfl) (List.cons_ne_nil c t)
    | cons d s =>
      obtain ⟨rfl, hst⟩ := List.cons_prefix_cons.mp hfound.1
      have hfull := hbehind.full (by rw [hkey]; rfl)
      have htext : k₁.text = v ++ [d] ++ s := by
        have hcat : k₁.text ++ [0] = v ++ [d] ++ s ++ [0] := by
          rw [← DoubleArrayKey.full, hfull, hkey]
          simp
        exact List.append_cancel_right hcat
      have hlook : valueOf keys_ (v ++ [d] ++ s) = some k.value.toInt := by
        rw [← htext, valueOf_text h.keys hbehind.mem, hbehind.value]
      rw [prefixesFrom_single hst hlook fun s' _ hne => hnone fun he => hne (List.cons.inj he).2.symm]
      simp
  · rw [if_neg hfound]
    refine prefixesFrom_nil fun s' hs' => hnone fun he => hfound ⟨?_, fun hs => ?_⟩
    · rw [he]
      exact List.cons_prefix_cons.mpr ⟨rfl, hs'⟩
    · rw [he] at hs
      exact absurd hs (List.cons_ne_nil c s')

theorem prefixLoop_end (h : Dictionary keys_ owner units₀ leaves room units_)
    (hp : Inner keys_ owner units₀ leaves p v) (l : List (Int × Nat)) :
    (prefixLoop units_ (4 * units₀.length) max_num_of_results [0] v.length p
        (collect max_num_of_results l)).bind
      (Results.finish units_ (4 * units₀.length) max_num_of_results) =
      some (collect max_num_of_results (l ++ prefixesFrom (valueOf keys_) v [])) := by
  obtain ⟨u, hu, hcases⟩ := h.next_unit hp 0
  have hextract : (collect max_num_of_results l).extract units_ (4 * units₀.length)
      max_num_of_results 0 p v.length = some (collect max_num_of_results l) := by
    rw [Results.extract, h.get_inner hp]
    simp
  rw [prefixLoop, hextract, h.get_inner hp]
  simp only [Option.bind_eq_bind, Option.bind_some, ← Nat.xor_assoc, hu]
  rcases hcases with ⟨hleaf, k, hk, hi, bound, hlinked⟩ | ⟨hleaf, hc, hno⟩ | ⟨-, -, hinner⟩
  · obtain ⟨k₁, hbehind⟩ := h.behind hp hk hi
    have hrun := @leaf_ok units_ max_num_of_results (4 * units₀.length) bound u k hlinked hbehind.valid
      [] NulFree.nil l v.length
    have hkey := hbehind.valid.key_
    have hfree : NulFree (k.text.drop k.moved) := hbehind.valid.nulFree.drop _
    rw [if_pos hleaf]
    refine Eq.trans hrun ?_
    generalize k.text.drop k.moved = s at hkey hfree ⊢
    rw [prefixesFrom]
    cases s with
    | nil =>
      have hfull := hbehind.full (by rw [hkey]; rfl)
      rw [hkey] at hfull
      have htext : k₁.text = v := List.append_cancel_right hfull
      rw [if_pos ⟨List.nil_prefix, fun _ => rfl⟩, ← htext, valueOf_text h.keys hbehind.mem,
        hbehind.value]
      rfl
    | cons d s =>
      have hnone : valueOf keys_ v = none := valueOf_none fun k' hk' htext => by
        have hhead := (hbehind.only k' hk' (by rw [DoubleArrayKey.full, htext])).2
        rw [hkey] at hhead
        exact hfree d List.mem_cons_self (Option.some.inj hhead)
      rw [if_neg fun hp => List.cons_ne_nil d s (List.prefix_nil.mp hp.1), hnone]
      rfl
  · rw [if_neg (by rw [hleaf]; exact Bool.false_ne_true), if_pos hc]
    rw [prefixesFrom, valueOf_of_not_has hno]
    simp [Results.finish]
  · exact (h.not_full hinner).elim

theorem prefixLoop_ok (h : Dictionary keys_ owner units₀ leaves room units_) :
    ∀ {t v : Bytes} {p : Nat} {l : List (Int × Nat)}, Inner keys_ owner units₀ leaves p v →
      NulFree t →
      (prefixLoop units_ (4 * units₀.length) max_num_of_results (t ++ [0]) v.length p
          (collect max_num_of_results l)).bind
        (Results.finish units_ (4 * units₀.length) max_num_of_results) =
        some (collect max_num_of_results (l ++ prefixesFrom (valueOf keys_) v t)) := by
  intro t
  induction t with
  | nil => exact fun hp _ => h.prefixLoop_end hp _
  | cons c t ih =>
    intro v p l hp ht
    have hc : c ≠ 0 := ht c List.mem_cons_self
    obtain ⟨u, hu, hcases⟩ := h.next_unit hp c
    rw [List.cons_append, prefixLoop, h.extract_ok hp hc, h.get_inner hp, prefixesFrom,
      ← List.append_assoc]
    generalize l ++ ((valueOf keys_ v).map fun x => (x, v.length)).toList = l
    simp only [Option.bind_eq_bind, Option.bind_some, ← Nat.xor_assoc, hu]
    rcases hcases with ⟨hleaf, k, hk, hi, bound, hlinked⟩ | ⟨hleaf, hlabel, hno⟩ |
      ⟨hleaf, hlabel, hinner⟩
    · obtain ⟨k₁, hbehind⟩ := h.behind hp hk hi
      rw [if_pos hleaf, h.prefixes_at_leaf hbehind hc]
      exact leaf_ok hlinked hbehind.valid ht l v.length
    · rw [if_neg (by rw [hleaf]; exact Bool.false_ne_true), if_pos hlabel,
        prefixesFrom_nil fun s _ => valueOf_none fun k hk htext => hno ?_, List.append_nil]
      · rfl
      · exact has_of_text (s := s ++ [0]) hk (by rw [htext]; simp)
    · rw [if_neg (by rw [hleaf]; exact Bool.false_ne_true), if_neg (not_not.mpr hlabel)]
      have hlen : (v ++ [c]).length = v.length + 1 := List.length_append
      rw [← hlen]
      exact ih hinner fun b hb => ht b (List.mem_cons_of_mem c hb)

/-- The unit 1 says how many units there are. -/
theorem commonPrefixSearch_ok (h : Dictionary keys_ owner units₀ leaves room units_) (q : Bytes) :
    commonPrefixSearch units_ q max_num_of_results =
      some (collect max_num_of_results (prefixesFrom (valueOf keys_) [] (cstr q))) := by
  have hrun := @prefixLoop_ok keys_ leaves owner units₀ units_ room max_num_of_results h (cstr q) [] 0 []
    h.root (nulFree_cstr q)
  have hstart : collect max_num_of_results [] = ⟨[], 0⟩ := by
    rw [collect, List.take_nil]
    rfl
  rw [hstart] at hrun
  rw [commonPrefixSearch, h.size_unit]
  simp only [Option.bind_eq_bind, Option.bind_some, h.built.tail]
  exact hrun

end Dictionary

end

/-! ## Without keys -/

theorem prefixLoop_of_searchLeaf {units_ : List (BitVec 32)} {tail_ max_num_of_results : Nat}
    (hends : ∀ (p : Nat) (u : BitVec 32), units_[p]? = some u → isEnd u = false) :
    ∀ {query : Bytes} {length index : Nat} {r : Results},
      searchLeaf units_ query index = some none →
      prefixLoop units_ tail_ max_num_of_results query length index r = some (r, none) := by
  intro query
  induction query with
  | nil =>
    intro length index r h
    cases h
  | cons c query ih =>
    intro length index r h
    rw [searchLeaf] at h
    obtain ⟨unit, hunit, h⟩ := Option.bind_eq_some_iff.mp h
    obtain ⟨unit', hunit', h⟩ := Option.bind_eq_some_iff.mp h
    have hextract : r.extract units_ tail_ max_num_of_results c index length = some r := by
      rw [Results.extract, hunit]
      simp [hends index unit hunit]
    rw [prefixLoop, hextract, hunit]
    simp only [Option.bind_eq_bind, Option.bind_some, hunit']
    by_cases hleaf : isLeaf unit' = true
    · rw [if_pos hleaf] at h
      cases h
    · rw [if_neg hleaf] at h ⊢
      by_cases hlabel : label unit' ≠ c
      · rw [if_pos hlabel]
      · rw [if_neg hlabel] at h ⊢
        exact ih h

theorem commonPrefixSearch_blank {units_ : List (BitVec 32)} {u : Nat} (h : Blank units_ u)
    (q : Bytes) (max_num_of_results : Nat) :
    commonPrefixSearch units_ q max_num_of_results = some ⟨[], 0⟩ := by
  have hone : 1 < units_.length := by
    rw [h.length]
    decide
  have hends : ∀ (p : Nat) (u : BitVec 32), units_[p]? = some u → isEnd u = false := fun p u hu => by
    have hmark := (h.marks p).2
    rwa [unitAt, hu] at hmark
  rw [commonPrefixSearch, List.getElem?_eq_getElem hone]
  simp only [Option.bind_eq_bind, Option.bind_some,
    prefixLoop_of_searchLeaf hends (searchLeaf_blank h (cstr q))]
  rfl

end CommonTools.DartsClone
