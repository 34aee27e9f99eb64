import CommonTools.Lib.BitCount
import CommonTools.Simhash.SimStruct

/-! # Signatures and similar documents

`hammingDist` compares two signatures; `getSimilarDoc` sorts the values read
from the store by their distance to the signature of the request. -/
namespace CommonTools.Simhash
open CommonTools.Lib

/-- `hamming_dist`; a 64-bit word has no more bits to clear than 64. -/
def hammingDist (t1 t2 : BitVec 64) : Option Nat := clearCount 64 (t1 ^^^ t2) 0

/-- The loop ends and counts the differing bits. -/
theorem hammingDist_eq (t1 t2 : BitVec 64) : hammingDist t1 t2 = some (bitDist t1 t2) := by
  have hle : (setBits (t1 ^^^ t2)).card ≤ 64 := by
    rw [card_setBits_xor]; exact bitDist_le t1 t2
  rw [hammingDist, clearCount_eq 0 hle, card_setBits_xor, Nat.zero_add]

/-! ## `get_similar_doc` -/

/-- `output->simdis[d].push_back(tmp); output->counts[d] ++`. -/
def SimOutput.push (output : SimOutput) (d : Fin DISTANCE) (tmp : Simval) : SimOutput :=
  { output with
    simdis := Function.update output.simdis d (output.simdis d ++ [tmp])
    counts := Function.update output.counts d.castSucc (output.counts d.castSucc + 1) }

/-- One value of the list under `key`. A hit at a distance for which `simdis`
has no list is a write out of bounds. -/
def scanValue (sign : BitVec 64) (input : SimInput) (now : BitVec 32) (key : Bytes)
    (state : SimOutput × Bool) (val : Value) : Option (SimOutput × Bool) :=
  -- the same document is not compared
  if input.docid = val.docid then some (state.1, true)
  else if val.expired now then some state
  else do
    let d ← hammingDist val.simid sign
    if d ≤ input.hamdis then
      if h : d < DISTANCE then some (state.1.push ⟨d, h⟩ ⟨key, val⟩, state.2) else none
    else some state

/-- `get_similar_doc` at the time `now`: the output and `existSameDoc`. -/
def getSimilarDoc (redisvalue : List RPush) (sign : BitVec 64) (output : SimOutput)
    (input : SimInput) (existSameDoc : Bool) (now : BitVec 32) : Option (SimOutput × Bool) :=
  if input.strategy = .APPEND then some (output, existSameDoc)
  else match input.pattern with
    | .FULLTEXT =>
      let output := { output with counts := fun _ => 0 }
      redisvalue.foldlM (fun state val => val.value.foldlM (scanValue sign input now val.key) state)
        (output, existSameDoc)
    | .PARAGRAPH => some (output, existSameDoc)
    | .SENTENCE => some (output, existSameDoc)

/-! ## What is a hit -/

/-- All values that were read, with their keys. -/
def entries (redisvalue : List RPush) : List Simval :=
  redisvalue.flatMap fun e => e.value.map (Simval.mk e.key)

/-- A value that `getSimilarDoc` reports. -/
def isHit (sign : BitVec 64) (input : SimInput) (now : BitVec 32) (v : Value) : Bool :=
  decide (input.docid ≠ v.docid ∧ v.expired now = false ∧
    (bitDist v.simid sign : Int) ≤ input.hamdis)

/-- The hits at distance `d`, in the order in which they are read. -/
def hitsAt (sign : BitVec 64) (input : SimInput) (now : BitVec 32) (d : Nat)
    (read : List Simval) : List Simval :=
  read.filter fun sv => isHit sign input now sv.val && bitDist sv.val.simid sign == d

/-- What `read` has added to the output and to `existSameDoc`. -/
structure Scanned (sign : BitVec 64) (input : SimInput) (now : BitVec 32)
    (before after : SimOutput × Bool) (read : List Simval) : Prop where
  simdis : ∀ d, after.1.simdis d = before.1.simdis d ++ hitsAt sign input now d read
  simrate : after.1.simrate = before.1.simrate
  counts : ∀ d : Fin DISTANCE, after.1.counts d.castSucc =
    before.1.counts d.castSucc + (hitsAt sign input now d read).length
  last : after.1.counts (Fin.last DISTANCE) = before.1.counts (Fin.last DISTANCE)
  near : ∀ sv ∈ read, isHit sign input now sv.val → bitDist sv.val.simid sign < DISTANCE
  same : after.2 = (before.2 || read.any fun sv => decide (input.docid = sv.val.docid))

section
variable {sign : BitVec 64} {input : SimInput} {now : BitVec 32}

theorem Scanned.refl (state : SimOutput × Bool) : Scanned sign input now state state [] :=
  ⟨fun d => by simp [hitsAt], rfl, fun d => by simp [hitsAt], rfl, by simp, by simp⟩

theorem Scanned.trans {a b c : SimOutput × Bool} {l m : List Simval}
    (h : Scanned sign input now a b l) (h' : Scanned sign input now b c m) :
    Scanned sign input now a c (l ++ m) where
  simdis d := by rw [h'.simdis, h.simdis]; simp [hitsAt]
  simrate := h'.simrate.trans h.simrate
  counts d := by rw [h'.counts, h.counts]; simp [hitsAt, Int.add_assoc]
  last := h'.last.trans h.last
  near sv hsv := (List.mem_append.mp hsv).elim (h.near sv) (h'.near sv)
  same := by rw [h'.same, h.same, List.any_append, Bool.or_assoc]

/-- A value that is no hit leaves the output alone. -/
theorem Scanned.skip {state : SimOutput × Bool} {sv : Simval}
    (hno : isHit sign input now sv.val = false) :
    Scanned sign input now state
      (state.1, state.2 || decide (input.docid = sv.val.docid)) [sv] := by
  refine ⟨fun d => ?_, rfl, fun d => ?_, rfl, fun x hx hit => ?_, ?_⟩
  · simp [hitsAt, hno]
  · simp [hitsAt, hno]
  · rw [List.mem_singleton.mp hx, hno] at hit
    exact absurd hit (by decide)
  · simp

theorem Scanned.hit {state : SimOutput × Bool} {sv : Simval}
    (hyes : isHit sign input now sv.val = true) (hd : bitDist sv.val.simid sign < DISTANCE) :
    Scanned sign input now state
      (state.1.push ⟨bitDist sv.val.simid sign, hd⟩ sv, state.2) [sv] := by
  have hne : input.docid ≠ sv.val.docid := (of_decide_eq_true hyes).1
  have hat : ∀ d : Fin DISTANCE, hitsAt sign input now d [sv] =
      if d = ⟨bitDist sv.val.simid sign, hd⟩ then [sv] else [] := fun d => by
    by_cases h : d = ⟨bitDist sv.val.simid sign, hd⟩
    · rw [if_pos h, h]; simp [hitsAt, hyes]
    · have hval : bitDist sv.val.simid sign ≠ d.val := fun he => h (Fin.ext he.symm)
      rw [if_neg h]; simp [hitsAt, hval]
  refine ⟨fun d => ?_, rfl, fun d => ?_, ?_, fun x hx _ => ?_, ?_⟩
  · rw [hat, SimOutput.push]
    by_cases h : d = ⟨bitDist sv.val.simid sign, hd⟩
    · subst h; simp
    · simp [h]
  · rw [hat, SimOutput.push]
    by_cases h : d = ⟨bitDist sv.val.simid sign, hd⟩
    · subst h; simp
    · have hcast : d.castSucc ≠ Fin.castSucc ⟨bitDist sv.val.simid sign, hd⟩ := fun he =>
        h (Fin.castSucc_injective _ he)
      dsimp only
      rw [if_neg h, Function.update_of_ne hcast]
      simp
  · exact Function.update_of_ne (Fin.castSucc_lt_last _).ne' _ _
  · rw [List.mem_singleton.mp hx]; exact hd
  · simp [hne]

/-- One round reports its value or leaves it. -/
theorem scanValue_spec {sv : Simval} {state state' : SimOutput × Bool}
    (h : scanValue sign input now sv.key state sv.val = some state') :
    Scanned sign input now state state' [sv] := by
  unfold scanValue at h
  split at h
  · rename_i heq
    obtain rfl := Option.some.inj h
    have hno : isHit sign input now sv.val = false := by simp [isHit, heq]
    simpa [heq] using @Scanned.skip _ _ _ state _ hno
  · rename_i hne
    split at h
    · rename_i hexp
      obtain rfl := Option.some.inj h
      have hno : isHit sign input now sv.val = false := by simp [isHit, hexp]
      simpa [hne] using @Scanned.skip _ _ _ state _ hno
    · rename_i hlive
      rw [hammingDist_eq] at h
      simp only [Option.bind_eq_bind, Option.bind_some] at h
      split at h
      · rename_i hle
        split at h
        · rename_i hd
          obtain rfl := Option.some.inj h
          exact Scanned.hit (by simp [isHit, hne, hlive, hle]) hd
        · cases h
      · rename_i hfar
        obtain rfl := Option.some.inj h
        have hno : isHit sign input now sv.val = false := by simp [isHit, hfar]
        simpa [hne] using @Scanned.skip _ _ _ state _ hno

theorem foldlM_scanValue :
    ∀ {read : List Simval} {state state' : SimOutput × Bool},
      read.foldlM (fun st sv => scanValue sign input now sv.key st sv.val) state = some state' →
      Scanned sign input now state state' read := by
  intro read
  induction read with
  | nil =>
    intro state state' h
    obtain rfl := Option.some.inj h
    exact .refl state
  | cons sv read ih =>
    intro state state' h
    rw [List.foldlM_cons] at h
    obtain ⟨mid, hmid, hrest⟩ := Option.bind_eq_some_iff.mp h
    exact (scanValue_spec hmid).trans (ih hrest)

/-- The two nested loops read the entries in order. -/
theorem foldlM_entries (redisvalue : List RPush) (state : SimOutput × Bool) :
    redisvalue.foldlM (fun state val => val.value.foldlM (scanValue sign input now val.key) state)
        state =
      (entries redisvalue).foldlM (fun st sv => scanValue sign input now sv.key st sv.val)
        state := by
  induction redisvalue generalizing state with
  | nil => rfl
  | cons e rest ih =>
    rw [List.foldlM_cons, entries, List.flatMap_cons, ← entries, List.foldlM_append,
      List.foldlM_map]
    exact congrArg _ (funext ih)

/-- The lists of hits that the store commands work with. -/
structure Reported (sign : BitVec 64) (input : SimInput) (now : BitVec 32)
    (redisvalue : List RPush) (output : SimOutput) : Prop where
  simdis : ∀ d, output.simdis d = hitsAt sign input now d (entries redisvalue)
  counts : ∀ d : Fin DISTANCE, output.counts d.castSucc = (output.simdis d).length
  simrate : output.counts (Fin.last DISTANCE) = 0
  near : ∀ sv ∈ entries redisvalue, isHit sign input now sv.val →
    bitDist sv.val.simid sign < DISTANCE

theorem getSimilarDoc_fulltext {redisvalue : List RPush} {junk : Fin (DISTANCE + 1) → Int}
    {output : SimOutput} {existSameDoc existSameDoc' : Bool}
    (h : getSimilarDoc redisvalue sign (.init junk) input existSameDoc now =
      some (output, existSameDoc'))
    (hs : input.strategy ≠ .APPEND) (hp : input.pattern = .FULLTEXT) :
    Reported sign input now redisvalue output ∧ existSameDoc' =
      (existSameDoc || (entries redisvalue).any fun sv => decide (input.docid = sv.val.docid)) := by
  rw [getSimilarDoc, if_neg hs] at h
  simp only [hp, foldlM_entries] at h
  have hscan := foldlM_scanValue h
  have hsim : ∀ d, output.simdis d = hitsAt sign input now d (entries redisvalue) := fun d => by
    rw [hscan.simdis d]; rfl
  refine ⟨⟨hsim, fun d => ?_, hscan.last, hscan.near⟩, hscan.same⟩
  rw [hscan.counts d, hsim d]
  exact Int.zero_add _

/-- Without a full text nothing is reported. -/
theorem getSimilarDoc_other {redisvalue : List RPush} {output output' : SimOutput}
    {existSameDoc existSameDoc' : Bool}
    (h : getSimilarDoc redisvalue sign output input existSameDoc now =
      some (output', existSameDoc'))
    (hp : input.strategy = .APPEND ∨ input.pattern ≠ .FULLTEXT) :
    output' = output ∧ existSameDoc' = existSameDoc := by
  rw [getSimilarDoc] at h
  split at h
  · exact ⟨(Prod.mk.inj (Option.some.inj h)).1.symm, (Prod.mk.inj (Option.some.inj h)).2.symm⟩
  · rename_i hs
    cases hpat : input.pattern with
    | FULLTEXT => exact absurd hpat (hp.resolve_left hs)
    | PARAGRAPH | SENTENCE =>
      rw [hpat] at h
      exact ⟨(Prod.mk.inj (Option.some.inj h)).1.symm, (Prod.mk.inj (Option.some.inj h)).2.symm⟩

/-! ## A limit below `DISTANCE` -/

theorem scanValue_exists (hlimit : input.hamdis < DISTANCE) (key : Bytes)
    (state : SimOutput × Bool) (val : Value) :
    ∃ state', scanValue sign input now key state val = some state' := by
  rw [scanValue]
  split
  · exact ⟨_, rfl⟩
  · split
    · exact ⟨_, rfl⟩
    · rw [hammingDist_eq, Option.bind_eq_bind, Option.bind_some]
      split
      · rename_i hle
        rw [dif_pos (by omega)]
        exact ⟨_, rfl⟩
      · exact ⟨_, rfl⟩

theorem foldlM_scanValue_exists (hlimit : input.hamdis < DISTANCE) :
    ∀ (read : List Simval) (state : SimOutput × Bool), ∃ state',
      read.foldlM (fun st sv => scanValue sign input now sv.key st sv.val) state = some state' := by
  intro read
  induction read with
  | nil =>
    intro state
    exact ⟨state, rfl⟩
  | cons sv read ih =>
    intro state
    obtain ⟨mid, hmid⟩ := @scanValue_exists sign input now hlimit sv.key state sv.val
    obtain ⟨state', hrest⟩ := ih mid
    refine ⟨state', ?_⟩
    rw [List.foldlM_cons, hmid]
    exact hrest

/-- **What `get_similar_doc` reports.** Under a limit that has a list for every
distance, each list holds the live values of other documents at its distance. -/
theorem getSimilarDoc_exact (redisvalue : List RPush) (sign : BitVec 64) (input : SimInput)
    (junk : Fin (DISTANCE + 1) → Int) (existSameDoc : Bool) (now : BitVec 32)
    (hp : input.pattern = .FULLTEXT) (hs : input.strategy ≠ .APPEND)
    (hlimit : 0 ≤ input.hamdis ∧ input.hamdis < DISTANCE) :
    ∃ output existSameDoc', getSimilarDoc redisvalue sign (.init junk) input existSameDoc now =
        some (output, existSameDoc') ∧
      (∀ d : Fin DISTANCE, output.simdis d = (entries redisvalue).filter fun sv =>
        decide (sv.val.docid ≠ input.docid ∧ sv.val.expired now = false ∧
          bitDist sv.val.simid sign = d.val ∧ (d.val : Int) ≤ input.hamdis)) ∧
      (∀ d : Fin DISTANCE, output.counts d.castSucc = (output.simdis d).length) ∧
      (∀ d : Fin (DISTANCE + 1), input.hamdis < d.val → output.counts d = 0) ∧
      (existSameDoc' = true ↔
        existSameDoc = true ∨ ∃ sv ∈ entries redisvalue, sv.val.docid = input.docid) := by
  have hrun : ∃ state', getSimilarDoc redisvalue sign (.init junk) input existSameDoc now =
      some state' := by
    rw [getSimilarDoc, if_neg hs, hp]
    dsimp only
    rw [foldlM_entries]
    exact foldlM_scanValue_exists hlimit.2 _ _
  obtain ⟨⟨output, existSameDoc'⟩, hrun⟩ := hrun
  obtain ⟨hrep, hsame⟩ := getSimilarDoc_fulltext hrun hs hp
  have hlists : ∀ d : Fin DISTANCE, output.simdis d = (entries redisvalue).filter fun sv =>
      decide (sv.val.docid ≠ input.docid ∧ sv.val.expired now = false ∧
        bitDist sv.val.simid sign = d.val ∧ (d.val : Int) ≤ input.hamdis) := fun d => by
    rw [hrep.simdis d, hitsAt]
    refine List.filter_congr fun sv _ => ?_
    rw [Bool.eq_iff_iff, Bool.and_eq_true, isHit, decide_eq_true_iff, decide_eq_true_iff,
      beq_iff_eq]
    constructor
    · rintro ⟨⟨hdoc, hlive, hle⟩, hd⟩
      exact ⟨hdoc.symm, hlive, hd, hd ▸ hle⟩
    · rintro ⟨hdoc, hlive, hd, hle⟩
      exact ⟨⟨hdoc.symm, hlive, hd ▸ hle⟩, hd⟩
  refine ⟨output, existSameDoc', hrun, hlists, hrep.counts, fun d hd => ?_, ?_⟩
  · -- beyond the limit the list is empty
    induction d using Fin.lastCases with
    | last => exact hrep.simrate
    | cast d =>
      rw [hrep.counts d, hlists d, List.filter_eq_nil_iff.mpr fun sv _ => ?_]
      · rfl
      · rw [decide_eq_true_iff]
        rintro ⟨-, -, -, hle⟩
        rw [Fin.val_castSucc] at hd
        omega
  · rw [hsame, Bool.or_eq_true, List.any_eq_true]
    simp only [decide_eq_true_iff, @eq_comm _ input.docid]

/-- One list with the document itself, a value that is near and one that is not. -/
theorem getSimilarDoc_exact_three :
    ∃ output existSameDoc', getSimilarDoc
        [⟨[70], [⟨1, 1, 0, ⟨[], by decide⟩⟩, ⟨1, 2, 0, ⟨[], by decide⟩⟩,
          ⟨255, 3, 0, ⟨[], by decide⟩⟩], by decide⟩] 3 (.init fun _ => 7)
        ⟨[], 1, true, .FULLTEXT, 3, 0, .COMPARE, ⟨[], by decide⟩⟩ false 50 =
        some (output, existSameDoc') ∧ output.counts 1 = 1 ∧ output.counts 4 = 0 ∧
      existSameDoc' = true := by
  obtain ⟨output, same, hrun, hlists, hcounts, hzero, hsame⟩ := getSimilarDoc_exact
    [⟨[70], [⟨1, 1, 0, ⟨[], by decide⟩⟩, ⟨1, 2, 0, ⟨[], by decide⟩⟩,
      ⟨255, 3, 0, ⟨[], by decide⟩⟩], by decide⟩] 3
    ⟨[], 1, true, .FULLTEXT, 3, 0, .COMPARE, ⟨[], by decide⟩⟩ (fun _ => 7) false 50 rfl (by decide)
    (by decide)
  refine ⟨output, same, hrun, ?_, hzero 4 (by decide),
    hsame.mpr (.inr ⟨_, List.mem_cons_self, rfl⟩)⟩
  exact (hcounts 1).trans (by rw [hlists 1]; decide +kernel)

end

end CommonTools.Simhash
