import CommonTools.Http.Message

/-! # Writing a whole buffer

`writen_timeout` polls the socket and writes what is left until nothing is. The server
and the client take the -1 of a `write` that failed for a count: the pointer goes back
by a byte and one byte more is left. The function of the socket utilities gives up. -/
namespace CommonTools.Http
open CommonTools.Lib

/-! ## The loops -/

/-- What happens in a round: the `poll` fails or finds nothing, or `write` returns `n`. -/
inductive WriteEvent where
  | notReady
  | wrote (n : Int)
deriving DecidableEq

/-- A call `write(fd, buf + off, len)` and its result. -/
structure WriteCall where
  off : Int
  len : Int
  got : Int
deriving DecidableEq

/-- The function returns, is still at work, or an `int` overflows. -/
inductive WriteOutcome where
  | returned (ret : Int)
  | waiting
  | undefined
deriving DecidableEq

/-- The loop of `writen_timeout` for the events that come in. `onError` is what the function
returns when `write` has failed, if it looks at that. -/
def writeLoop (onError : Option Int) (buf_len : Int) :
    Int → Int → List WriteEvent → List WriteCall × WriteOutcome
  | left, _, [] => ([], if 0 < left then .waiting else .returned buf_len)
  | left, off, event :: events =>
    if 0 < left then
      match event with
      | .notReady => ([], .returned (-1))
      | .wrote n =>
        let call := ⟨off, left, n⟩
        if n = 0 then ([call], .returned (buf_len - left))
        else
          match if n = -1 then onError else none with
          | some ret => ([call], .returned ret)
          | none =>
            if INT_MAX < left - n then ([call], .undefined)
            else
              let (calls, outcome) := writeLoop onError buf_len (left - n) (off + n) events
              (call :: calls, outcome)
    else ([], .returned buf_len)

/-- `Http_Server::writen_timeout`. -/
def Server.writenTimeout (buf_len : Int) (events : List WriteEvent) :
    List WriteCall × WriteOutcome :=
  writeLoop none buf_len buf_len 0 events

/-- `writen_timeout` of the socket utilities; `left` is an `int`. -/
def SocketUtils.writenTimeout (buf_len : Int) (events : List WriteEvent) :
    List WriteCall × WriteOutcome :=
  writeLoop (some (-1)) buf_len (toInt32 buf_len) 0 events

end CommonTools.Http

namespace CommonTools.HttpClient
open CommonTools.Http

/-- `HttpClient::writen_timeout`. -/
def writenTimeout (need_to_write : Int) (events : List WriteEvent) :
    List WriteCall × WriteOutcome :=
  writeLoop none need_to_write need_to_write 0 events

end CommonTools.HttpClient

namespace CommonTools.Http
open CommonTools.Lib

/-! ## What is promised -/

/-- The results that `write` can have. -/
def Answers (calls : List WriteCall) : Prop :=
  ∀ c ∈ calls, c.got = -1 ∨ (0 ≤ c.got ∧ c.got ≤ c.len)

instance (calls : List WriteCall) : Decidable (Answers calls) :=
  inferInstanceAs (Decidable (∀ c ∈ calls, c.got = -1 ∨ (0 ≤ c.got ∧ c.got ≤ c.len)))

/-- The bytes of the successful writes. -/
def sent (buf : Bytes) (calls : List WriteCall) : Bytes :=
  calls.flatMap fun c => (buf.drop c.off.toNat).take c.got.toNat

/-- No call leaves the buffer, and when the function says that all is written, the buffer
has been sent. -/
def WritesExactly (buf : Bytes) (r : List WriteCall × WriteOutcome) : Prop :=
  r.2 ≠ .undefined ∧ (∀ c ∈ r.1, 0 ≤ c.off ∧ c.off + c.len ≤ buf.length) ∧
    (r.2 = .returned buf.length → sent buf r.1 = buf)

/-! ## The condition -/

def total : List WriteEvent → Int
  | [] => 0
  | .notReady :: events => total events
  | .wrote n :: events => n + total events

/-- The loop goes on behind these events: each is a write with a count or an error, and with
none of them `left` is used up. -/
def GoesOn (left : Int) : List WriteEvent → Prop
  | [] => 0 < left
  | .notReady :: _ => False
  | .wrote n :: events => 0 < left ∧ n ≠ 0 ∧ GoesOn (left - n) events

/-- Whenever `write` is called: no more writes have failed than bytes have been written before;
if it fails, `left + 1` is an `int`; and if it writes the rest, no write before has failed. -/
def ErrorsHarmless (buf_len : Int) (events : List WriteEvent) : Prop :=
  ∀ before n after, events = before ++ .wrote n :: after → GoesOn buf_len before →
    0 ≤ total before ∧ (n = -1 → buf_len - total before < INT_MAX) ∧
      (total before + n = buf_len → .wrote (-1) ∉ before)

/-- The same from a round on in which `off` is the sum of the counts. -/
def HarmlessFrom (buf_len off : Int) (failed : Bool) (events : List WriteEvent) : Prop :=
  ∀ before n after, events = before ++ .wrote n :: after → GoesOn (buf_len - off) before →
    0 ≤ off + total before ∧ (n = -1 → buf_len - (off + total before) < INT_MAX) ∧
      (off + total before + n = buf_len → failed = false ∧ .wrote (-1) ∉ before)

section
variable {buf_len off n : Int} {failed : Bool} {events : List WriteEvent}

theorem harmlessFrom_nil : HarmlessFrom buf_len off failed [] := by
  intro before n after h
  simp at h

theorem harmlessFrom_notReady : HarmlessFrom buf_len off failed (.notReady :: events) := by
  intro before n after h hgo
  cases before with
  | nil => cases (List.cons.inj h).1
  | cons e before =>
    obtain ⟨rfl, -⟩ := List.cons.inj h
    exact hgo.elim

theorem harmlessFrom_end (hleft : ¬ 0 < buf_len - off) :
    HarmlessFrom buf_len off failed events := by
  intro before n after _ hgo
  cases before with
  | nil => exact absurd hgo hleft
  | cons e before =>
    cases e with
    | notReady => exact hgo.elim
    | wrote m => exact absurd hgo.1 hleft

theorem harmlessFrom_wrote (hleft : 0 < buf_len - off) :
    HarmlessFrom buf_len off failed (.wrote n :: events) ↔
      (0 ≤ off ∧ (n = -1 → buf_len - off < INT_MAX) ∧ (off + n = buf_len → failed = false)) ∧
        (n ≠ 0 → HarmlessFrom buf_len (off + n) (failed || n == -1) events) := by
  have hshift : ∀ t : Int, off + n + t = off + (n + t) := fun t => Int.add_assoc off n t
  have hnext : buf_len - off - n = buf_len - (off + n) := Int.sub_sub buf_len off n
  constructor
  · intro h
    refine ⟨?_, ?_⟩
    · obtain ⟨hin, hint, hend⟩ := h [] n events rfl hleft
      simp only [total, Int.add_zero] at hin hint hend
      exact ⟨hin, hint, fun heq => (hend heq).1⟩
    · intro hn before m after heq hgo
      rw [← hnext] at hgo
      obtain ⟨hin, hint, hend⟩ := h (.wrote n :: before) m after (by rw [heq]; rfl)
        ⟨hleft, hn, hgo⟩
      rw [hshift]
      refine ⟨hin, hint, fun hall => ?_⟩
      obtain ⟨hok, hnone⟩ := hend hall
      obtain ⟨hne, hrest⟩ := not_or.mp fun h => hnone (List.mem_cons.mpr h)
      refine ⟨?_, hrest⟩
      rw [hok, Bool.false_or, beq_eq_false_iff_ne]
      rintro rfl
      exact hne rfl
  · rintro ⟨⟨hin, hint, hend⟩, hrest⟩ before m after heq hgo
    cases before with
    | nil =>
      obtain ⟨heq, -⟩ := List.cons.inj heq
      obtain rfl := WriteEvent.wrote.inj heq
      simp only [total, Int.add_zero]
      exact ⟨hin, hint, fun hall => ⟨hend hall, List.not_mem_nil⟩⟩
    | cons e before =>
      obtain ⟨hhead, htail⟩ := List.cons.inj heq
      subst hhead
      obtain ⟨-, hn, hgo⟩ := hgo
      rw [hnext] at hgo
      obtain ⟨hin', hint', hend'⟩ := hrest hn before m after htail hgo
      rw [hshift] at hin' hint' hend'
      refine ⟨hin', hint', fun hall => ?_⟩
      obtain ⟨hok, hnone⟩ := hend' hall
      rw [Bool.or_eq_false_iff, beq_eq_false_iff_ne] at hok
      refine ⟨hok.1, fun hmem => ?_⟩
      rcases List.mem_cons.mp hmem with herror | hmem
      · exact hok.2 (WriteEvent.wrote.inj herror).symm
      · exact hnone hmem

/-! ## The loop -/

/-- What a run from `off` on has to have in place of the bytes: it does not come to the end
after an error. -/
def RunsSafely (buf_len : Int) (failed : Bool) (r : List WriteCall × WriteOutcome) : Prop :=
  r.2 ≠ .undefined ∧ (∀ c ∈ r.1, 0 ≤ c.off ∧ c.off + c.len ≤ buf_len) ∧
    (r.2 = .returned buf_len → failed = false ∧ ∀ c ∈ r.1, c.got ≠ -1)

/-- A round in which `write` is called and its result is taken for a count. -/
theorem writeLoop_wrote {onError : Option Int} (hleft : 0 < buf_len - off) (hn : n ≠ 0)
    (hcount : (if n = -1 then onError else none) = none) :
    writeLoop onError buf_len (buf_len - off) off (.wrote n :: events) =
      if INT_MAX < buf_len - off - n then ([⟨off, buf_len - off, n⟩], .undefined)
      else
        (⟨off, buf_len - off, n⟩ ::
            (writeLoop onError buf_len (buf_len - (off + n)) (off + n) events).1,
          (writeLoop onError buf_len (buf_len - (off + n)) (off + n) events).2) := by
  rw [writeLoop, if_pos hleft, if_neg hn, hcount, ← Int.sub_sub]

theorem writeLoop_end (onError : Option Int) (hleft : ¬ 0 < n) :
    writeLoop onError buf_len n off events = ([], .returned buf_len) := by
  cases events with
  | nil => rw [writeLoop, if_neg hleft]
  | cons e events =>
    unfold writeLoop
    exact if_neg hleft

theorem runsSafely_cons {r : List WriteCall × WriteOutcome} :
    RunsSafely buf_len failed (⟨off, buf_len - off, n⟩ :: r.1, r.2) ↔
      0 ≤ off ∧ RunsSafely buf_len (failed || n == -1) r := by
  unfold RunsSafely
  simp only [List.forall_mem_cons, Bool.or_eq_false_iff, beq_eq_false_iff_ne]
  constructor
  · rintro ⟨hdef, ⟨⟨hoff, -⟩, hcalls⟩, hend⟩
    refine ⟨hoff, hdef, hcalls, fun h => ?_⟩
    obtain ⟨hok, hne, hnone⟩ := hend h
    exact ⟨⟨hok, hne⟩, hnone⟩
  · rintro ⟨hoff, hdef, hcalls, hend⟩
    refine ⟨hdef, ⟨⟨hoff, by omega⟩, hcalls⟩, fun h => ?_⟩
    obtain ⟨⟨hok, hne⟩, hnone⟩ := hend h
    exact ⟨hok, hne, hnone⟩

theorem runsSafely_iff (hlen : 0 ≤ buf_len) : ∀ {events : List WriteEvent} {off : Int}
    {failed : Bool}, 0 < buf_len - off → buf_len - off ≤ INT_MAX →
    Answers (writeLoop none buf_len (buf_len - off) off events).1 →
    (RunsSafely buf_len failed (writeLoop none buf_len (buf_len - off) off events) ↔
      HarmlessFrom buf_len off failed events) := by
  intro events
  induction events with
  | nil =>
    intro off failed hleft _ _
    refine iff_of_true ?_ harmlessFrom_nil
    rw [writeLoop, if_pos hleft]
    exact ⟨by decide, by simp, fun h => nomatch h⟩
  | cons e events ih =>
    intro off failed hleft hmax hanswers
    cases e with
    | notReady =>
      refine iff_of_true ?_ harmlessFrom_notReady
      rw [writeLoop, if_pos hleft]
      refine ⟨by decide, by simp, fun h => ?_⟩
      have hret := WriteOutcome.returned.inj h
      omega
    | wrote n =>
      rw [harmlessFrom_wrote hleft]
      by_cases hn : n = 0
      · subst hn
        rw [writeLoop, if_pos hleft, if_pos rfl]
        constructor
        · intro h
          have hfirst := (h.2.1 _ List.mem_cons_self).1
          exact ⟨⟨hfirst, fun h => absurd h (by decide), by omega⟩, fun h => absurd rfl h⟩
        · rintro ⟨⟨hin, -⟩, -⟩
          refine ⟨WriteOutcome.noConfusion, ?_, fun h => ?_⟩
          · intro c hc
            rw [List.mem_singleton.mp hc]
            dsimp only
            omega
          · have hret := WriteOutcome.returned.inj h
            omega
      · rw [writeLoop_wrote hleft hn (ite_self _)] at hanswers ⊢
        by_cases hint : INT_MAX < buf_len - off - n
        · -- an error at the largest `int`
          rw [if_pos hint] at hanswers ⊢
          refine iff_of_false (fun h => h.1 rfl) ?_
          rintro ⟨⟨-, hsmall, -⟩, -⟩
          have hcall : n = -1 ∨ (0 ≤ n ∧ n ≤ buf_len - off) := hanswers _ List.mem_cons_self
          rcases hcall with rfl | hcall
          · have := hsmall rfl
            omega
          · omega
        · rw [if_neg hint] at hanswers ⊢
          have hcall : n = -1 ∨ (0 ≤ n ∧ n ≤ buf_len - off) := hanswers _ List.mem_cons_self
          have hrest : Answers (writeLoop none buf_len (buf_len - (off + n)) (off + n) events).1 :=
            fun c hc => hanswers c (List.mem_cons_of_mem _ hc)
          rw [runsSafely_cons]
          by_cases hend : 0 < buf_len - (off + n)
          · rw [ih hend (by omega) hrest]
            constructor
            · rintro ⟨hin, hnext⟩
              exact ⟨⟨hin, by omega, by omega⟩, fun _ => hnext⟩
            · rintro ⟨⟨hin, -⟩, hnext⟩
              exact ⟨hin, hnext hn⟩
          · -- the rest has been written
            have hne : (n == -1) = false := beq_eq_false_iff_ne.mpr (by omega)
            rw [writeLoop_end none hend, hne, Bool.or_false]
            constructor
            · rintro ⟨hin, -, -, hnone⟩
              exact ⟨⟨hin, by omega, fun _ => (hnone rfl).1⟩, fun _ => harmlessFrom_end hend⟩
            · rintro ⟨⟨hin, -, hnone⟩, -⟩
              exact ⟨hin, WriteOutcome.noConfusion, by simp, fun _ => ⟨hnone (by omega), by simp⟩⟩

end

/-! ## The bytes -/

def failures (calls : List WriteCall) : Nat := calls.countP fun c => c.got == -1

/-- From `off` on the calls have sent one byte more than was left for each that failed, and
without a failure what was left. -/
def SentRest (buf : Bytes) (off : Int) (calls : List WriteCall) : Prop :=
  ((sent buf calls).length : Int) = buf.length - off + failures calls ∧
    (failures calls = 0 → sent buf calls = buf.drop off.toNat)

section
variable {buf : Bytes} {off n len : Int} {calls : List WriteCall}

theorem sentRest_nil : SentRest buf buf.length [] := by
  refine ⟨?_, fun _ => ?_⟩
  · simp [sent, failures]
  · rw [Int.toNat_natCast, List.drop_length]
    rfl

theorem SentRest.failed (h : SentRest buf (off - 1) calls) :
    SentRest buf off (⟨off, len, -1⟩ :: calls) := by
  have hsent : sent buf (⟨off, len, -1⟩ :: calls) = sent buf calls := rfl
  have hfail : failures (⟨off, len, -1⟩ :: calls) = failures calls + 1 := by simp [failures]
  refine ⟨?_, fun hz => ?_⟩
  · rw [hsent, h.1, hfail, Int.natCast_add]
    omega
  · rw [hfail] at hz
    exact absurd hz (Nat.succ_ne_zero _)

theorem SentRest.wrote (hoff : 0 ≤ off) (hn : 0 < n) (hle : off + n ≤ buf.length)
    (h : SentRest buf (off + n) calls) : SentRest buf off (⟨off, len, n⟩ :: calls) := by
  have hsent : sent buf (⟨off, len, n⟩ :: calls) =
    (buf.drop off.toNat).take n.toNat ++ sent buf calls := rfl
  have hfail : failures (⟨off, len, n⟩ :: calls) = failures calls := by
    have hne : ¬ n = -1 := by omega
    simp [failures, hne]
  have hnext : (off + n).toNat = off.toNat + n.toNat := Int.toNat_add hoff (by omega)
  refine ⟨?_, fun hz => ?_⟩
  · rw [hsent, hfail, List.length_append, List.length_take, List.length_drop, Int.natCast_add, h.1]
    omega
  · rw [hsent, h.2 (hfail ▸ hz), hnext, ← List.drop_drop, List.take_append_drop]

end

theorem sent_run {onError : Option Int} (honError : ∀ ret ∈ onError, ret < 0) {buf : Bytes} :
    ∀ {events : List WriteEvent} {off : Int} {r : List WriteCall × WriteOutcome},
      writeLoop onError buf.length (buf.length - off) off events = r → off ≤ buf.length →
      Answers r.1 → (∀ c ∈ r.1, 0 ≤ c.off) → r.2 = .returned buf.length → SentRest buf off r.1 := by
  intro events
  induction events with
  | nil =>
    intro off r hrun hoff _ _ hret
    subst hrun
    by_cases hleft : 0 < (buf.length : Int) - off
    · rw [writeLoop, if_pos hleft] at hret
      cases hret
    · obtain rfl : off = buf.length := by omega
      exact sentRest_nil
  | cons e events ih =>
    intro off r hrun hoff hanswers hin hret
    by_cases hleft : 0 < (buf.length : Int) - off
    · cases e with
      | notReady =>
        rw [writeLoop, if_pos hleft] at hrun
        subst hrun
        have hret := WriteOutcome.returned.inj hret
        omega
      | wrote n =>
        by_cases hn : n = 0
        · rw [writeLoop, if_pos hleft, if_pos hn] at hrun
          subst hrun
          have hret := WriteOutcome.returned.inj hret
          omega
        cases herror : (if n = -1 then onError else none) with
        | some ret =>
          rw [writeLoop, if_pos hleft, if_neg hn, herror] at hrun
          subst hrun
          have hneg : ret < 0 := by
            split at herror
            · exact honError ret herror
            · cases herror
          have hret := WriteOutcome.returned.inj hret
          omega
        | none =>
          rw [writeLoop_wrote hleft hn herror] at hrun
          by_cases hint : INT_MAX < (buf.length : Int) - off - n
          · rw [if_pos hint] at hrun
            subst hrun
            cases hret
          rw [if_neg hint] at hrun
          generalize hrest :
            writeLoop onError buf.length (buf.length - (off + n)) (off + n) events = rest at hrun
          subst hrun
          have hcall : n = -1 ∨ (0 ≤ n ∧ n ≤ (buf.length : Int) - off) :=
            hanswers _ List.mem_cons_self
          have hoff' : 0 ≤ off := hin _ List.mem_cons_self
          have hsent := ih hrest (by omega) (fun c hc => hanswers c (List.mem_cons_of_mem _ hc))
            (fun c hc => hin c (List.mem_cons_of_mem _ hc)) hret
          rcases hcall with rfl | hcall
          · exact hsent.failed
          · exact hsent.wrote hoff' (by omega) (by omega)
    · rw [writeLoop_end onError hleft] at hrun
      subst hrun
      obtain rfl : off = buf.length := by omega
      exact sentRest_nil

/-! ## The functions -/

theorem harmlessFrom_start {buf_len : Int} {events : List WriteEvent} :
    HarmlessFrom buf_len 0 false events ↔ ErrorsHarmless buf_len events := by
  unfold HarmlessFrom ErrorsHarmless
  simp only [Int.zero_add, Int.sub_zero, true_and]

/-- The bytes are right exactly when no call has failed. -/
theorem writesExactly_iff_safely {onError : Option Int} (honError : ∀ ret ∈ onError, ret < 0)
    {buf : Bytes} {events : List WriteEvent}
    (hanswers : Answers (writeLoop onError buf.length buf.length 0 events).1) :
    WritesExactly buf (writeLoop onError buf.length buf.length 0 events) ↔
      RunsSafely buf.length false (writeLoop onError buf.length buf.length 0 events) := by
  have hrun := @sent_run onError honError buf events 0 _ rfl (Int.natCast_nonneg _)
  rw [Int.sub_zero] at hrun
  replace hrun := hrun hanswers
  generalize writeLoop onError buf.length buf.length 0 events = r at hrun hanswers
  have hfail : failures r.1 = 0 ↔ ∀ c ∈ r.1, c.got ≠ -1 := by
    unfold failures
    rw [List.countP_eq_zero]
    simp only [beq_iff_eq]
  unfold WritesExactly RunsSafely
  refine and_congr_right fun _ => and_congr_right fun hin => ?_
  refine forall_congr' fun hret => ?_
  obtain ⟨hlen, hbytes⟩ := hrun (fun c hc => (hin c hc).1) hret
  rw [← hfail]
  constructor
  · intro hsent
    rw [hsent] at hlen
    exact ⟨rfl, by omega⟩
  · rintro ⟨-, hz⟩
    rw [hbytes hz]
    rfl

theorem writesExactly_iff {buf : Bytes} (hmax : (buf.length : Int) ≤ INT_MAX)
    {events : List WriteEvent}
    (hanswers : Answers (writeLoop none buf.length buf.length 0 events).1) :
    WritesExactly buf (writeLoop none buf.length buf.length 0 events) ↔
      ErrorsHarmless buf.length events := by
  have hnone : ∀ ret ∈ (none : Option Int), ret < 0 := by
    intro ret h
    cases h
  rw [writesExactly_iff_safely hnone hanswers, ← harmlessFrom_start]
  by_cases hleft : 0 < (buf.length : Int)
  · have hiff := @runsSafely_iff buf.length (Int.natCast_nonneg _) events 0 false
    rw [Int.sub_zero] at hiff
    exact hiff hleft hmax hanswers
  · rw [writeLoop_end none hleft]
    exact iff_of_true ⟨WriteOutcome.noConfusion, by simp, fun _ => ⟨rfl, by simp⟩⟩
      (harmlessFrom_end (by rwa [Int.sub_zero]))

/-- **When a reported full write is a full write.** -/
theorem writenTimeout_exact_iff (buf : Bytes) (hmax : (buf.length : Int) ≤ INT_MAX)
    (events : List WriteEvent) :
    (Answers (Server.writenTimeout buf.length events).1 →
      (WritesExactly buf (Server.writenTimeout buf.length events) ↔
        ErrorsHarmless buf.length events)) ∧
    (Answers (HttpClient.writenTimeout buf.length events).1 →
      (WritesExactly buf (HttpClient.writenTimeout buf.length events) ↔
        ErrorsHarmless buf.length events)) :=
  ⟨writesExactly_iff hmax, writesExactly_iff hmax⟩

/-- Two writes of one byte. -/
theorem writenTimeout_exact_twice :
    WritesExactly [97, 98] (Server.writenTimeout 2 [.wrote 1, .wrote 1]) ∧
      WritesExactly [97, 98] (HttpClient.writenTimeout 2 [.wrote 1, .wrote 1]) := by
  have hharmless : ErrorsHarmless 2 [.wrote 1, .wrote 1] := by
    rw [← harmlessFrom_start, harmlessFrom_wrote (by decide)]
    refine ⟨by decide, fun _ => ?_⟩
    rw [harmlessFrom_wrote (by decide)]
    exact ⟨by decide, fun _ => harmlessFrom_nil⟩
  obtain ⟨hserver, hclient⟩ :=
    writenTimeout_exact_iff [97, 98] (by decide) [.wrote 1, .wrote 1]
  exact ⟨(hserver (by decide)).mpr hharmless, (hclient (by decide)).mpr hharmless⟩

/-- A write that fails behind the first byte has this byte sent again, and the function says
that all is written. -/
theorem writenTimeout_repeats :
    Answers (Server.writenTimeout 2 [.wrote 1, .wrote (-1), .wrote 2]).1 ∧
      ¬ WritesExactly [97, 98] (Server.writenTimeout 2 [.wrote 1, .wrote (-1), .wrote 2]) ∧
      ¬ WritesExactly [97, 98] (HttpClient.writenTimeout 2 [.wrote 1, .wrote (-1), .wrote 2]) := by
  refine ⟨by decide, ?_, ?_⟩
  · intro h
    exact absurd (h.2.2 (by decide)) (by decide)
  · intro h
    exact absurd (h.2.2 (by decide)) (by decide)

/-! ## The function that gives up -/

theorem runsSafely_socket {buf_len : Int} (hlen : 0 ≤ buf_len) : ∀ {events : List WriteEvent}
    {off : Int}, 0 ≤ off → buf_len - off ≤ INT_MAX →
    Answers (writeLoop (some (-1)) buf_len (buf_len - off) off events).1 →
    RunsSafely buf_len false (writeLoop (some (-1)) buf_len (buf_len - off) off events) := by
  intro events
  induction events with
  | nil =>
    intro off _ _ _
    unfold writeLoop
    refine ⟨?_, by simp, fun _ => ⟨rfl, by simp⟩⟩
    split
    · exact WriteOutcome.noConfusion
    · exact WriteOutcome.noConfusion
  | cons e events ih =>
    intro off hoff hmax hanswers
    by_cases hleft : 0 < buf_len - off
    · have hcall : ∀ {n : Int}, ∀ c ∈ [(⟨off, buf_len - off, n⟩ : WriteCall)],
          0 ≤ c.off ∧ c.off + c.len ≤ buf_len := by
        intro n c hc
        rw [List.mem_singleton.mp hc]
        dsimp only
        omega
      cases e with
      | notReady =>
        rw [writeLoop, if_pos hleft]
        refine ⟨WriteOutcome.noConfusion, by simp, fun _ => ⟨rfl, by simp⟩⟩
      | wrote n =>
        by_cases hn : n = 0
        · rw [writeLoop, if_pos hleft, if_pos hn]
          refine ⟨WriteOutcome.noConfusion, hcall, fun _ => ⟨rfl, fun c hc => ?_⟩⟩
          rw [List.mem_singleton.mp hc, hn]
          show (0 : Int) ≠ -1
          decide
        by_cases herror : n = -1
        · rw [writeLoop, if_pos hleft, if_neg hn, if_pos herror]
          refine ⟨WriteOutcome.noConfusion, hcall, fun hret => ?_⟩
          have hret := WriteOutcome.returned.inj hret
          omega
        · rw [writeLoop_wrote hleft hn (if_neg herror)] at hanswers ⊢
          by_cases hint : INT_MAX < buf_len - off - n
          · rw [if_pos hint] at hanswers
            have hgot : n = -1 ∨ (0 ≤ n ∧ n ≤ buf_len - off) := hanswers _ List.mem_cons_self
            omega
          · rw [if_neg hint] at hanswers ⊢
            have hgot : n = -1 ∨ (0 ≤ n ∧ n ≤ buf_len - off) := hanswers _ List.mem_cons_self
            have hne : (n == -1) = false := beq_eq_false_iff_ne.mpr herror
            rw [runsSafely_cons, hne]
            exact ⟨hoff, ih (by omega) (by omega) fun c hc =>
              hanswers c (List.mem_cons_of_mem _ hc)⟩
    · rw [writeLoop_end _ hleft]
      exact ⟨WriteOutcome.noConfusion, by simp, fun _ => ⟨rfl, by simp⟩⟩

/-- **The function of the socket utilities always writes exactly.** -/
theorem SocketUtils.writenTimeout_exact (buf : Bytes) (hmax : (buf.length : Int) ≤ INT_MAX)
    (events : List WriteEvent)
    (hanswers : Answers (SocketUtils.writenTimeout buf.length events).1) :
    WritesExactly buf (SocketUtils.writenTimeout buf.length events) := by
  unfold SocketUtils.writenTimeout at hanswers ⊢
  rw [toInt32_natCast hmax] at hanswers ⊢
  have hneg : ∀ ret ∈ some (-1 : Int), ret < 0 := by
    intro ret h
    obtain rfl := Option.some.inj h
    decide
  rw [writesExactly_iff_safely hneg hanswers]
  have hsafe := @runsSafely_socket buf.length (Int.natCast_nonneg _) events 0 (Int.le_refl 0)
  rw [Int.sub_zero] at hsafe
  exact hsafe hmax hanswers

end CommonTools.Http
