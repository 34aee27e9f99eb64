import CommonTools.Lib.CString

/-! # Reading from a stream

A socket holds the bytes that are still to come and says how the network cuts
them: each `read` gets at least one byte, at most what it asks for, and nothing
only when nothing is left. The loop that reads until it has enough does not see
the cuts. -/
namespace CommonTools.Lib

/-- `cuts` bounds the reads to come; behind its end a read gets all it asks for. -/
structure Socket where
  unread : Bytes
  cuts : List Nat
deriving DecidableEq

/-- How much `read` with room for `len` bytes gets if the stream holds it. -/
def Socket.room (s : Socket) (len : Nat) : Nat :=
  match s.cuts with
  | [] => len
  | c :: _ => min len (max c 1)

def Socket.read (s : Socket) (len : Nat) : Bytes × Socket :=
  (s.unread.take (s.room len), ⟨s.unread.drop (s.room len), s.cuts.tail⟩)

/-- Read `left` bytes, at most `size` at a time, or as many as there are. -/
def Socket.readLoop (size : Nat) : Nat → Nat → Socket → Bytes × Socket
  | 0, _, s => ([], s)
  | fuel + 1, left, s =>
    if left = 0 then ([], s)
    else
      let (b, s) := s.read (min left size)
      if b = [] then ([], s)
      else
        let (rest, s) := readLoop size fuel (left - b.length) s
        (b ++ rest, s)

def Socket.readn (size left : Nat) (s : Socket) : Bytes × Socket := s.readLoop size left left

section
variable {s : Socket} {len size : Nat}

theorem Socket.room_bounds (hlen : 0 < len) : 0 < s.room len ∧ s.room len ≤ len := by
  unfold Socket.room
  split
  · exact ⟨hlen, Nat.le_refl len⟩
  · exact ⟨by omega, Nat.min_le_left ..⟩

theorem Socket.read_append : (s.read len).1 ++ (s.read len).2.unread = s.unread :=
  List.take_append_drop ..

theorem Socket.read_length_le (hlen : 0 < len) : (s.read len).1.length ≤ len := by
  rw [Socket.read, List.length_take]
  have hroom := (@Socket.room_bounds s len hlen).2
  omega

theorem Socket.read_ne_nil (hlen : 0 < len) (h : s.unread ≠ []) : (s.read len).1 ≠ [] := by
  intro hnil
  have hroom := (@Socket.room_bounds s len hlen).1
  rcases List.take_eq_nil_iff.mp hnil with hz | hz
  · omega
  · exact h hz

theorem Socket.read_nil (h : s.unread = []) : (s.read len).1 = [] := by
  rw [Socket.read, h, List.take_nil]

/-- The loop gets the next bytes of the stream, however they are cut. -/
theorem Socket.readLoop_spec (hsize : 0 < size) : ∀ (fuel left : Nat) (s : Socket), left ≤ fuel →
    (readLoop size fuel left s).1 = s.unread.take left ∧
      (readLoop size fuel left s).2.unread = s.unread.drop left
  | 0, left, s, hle => by
    rw [Nat.le_zero.mp hle]
    exact ⟨List.take_zero.symm, rfl⟩
  | fuel + 1, left, s, hle => by
    rw [readLoop]
    split
    · rename_i hz
      rw [hz]
      exact ⟨List.take_zero.symm, rfl⟩
    · rename_i hz
      have hpos : 0 < min left size := by omega
      by_cases hnil : s.unread = []
      · have hread : (s.read (min left size)).1 = [] := Socket.read_nil hnil
        simp only [hread, if_true]
        rw [hnil, List.take_nil, List.drop_nil]
        refine ⟨rfl, ?_⟩
        rw [Socket.read, hnil, List.drop_nil]
      · have hread := Socket.read_ne_nil hpos hnil
        simp only [hread, if_false]
        have hlen := @Socket.read_length_le s _ hpos
        have hn : 0 < (s.read (min left size)).1.length := List.length_pos_iff.mpr hread
        obtain ⟨hgot, hrest⟩ := readLoop_spec hsize fuel (left - (s.read (min left size)).1.length)
          (s.read (min left size)).2 (by omega)
        have happ := @Socket.read_append s (min left size)
        generalize s.read (min left size) = r at hlen hgot hrest happ
        have hle : r.1.length ≤ left := by omega
        constructor
        · rw [hgot, ← happ, List.take_append, List.take_of_length_le hle]
        · rw [hrest, ← happ, List.drop_append, List.drop_eq_nil_of_le hle, List.nil_append]

theorem Socket.readn_spec (hsize : 0 < size) (left : Nat) (s : Socket) :
    (s.readn size left).1 = s.unread.take left ∧
      (s.readn size left).2.unread = s.unread.drop left :=
  readLoop_spec hsize left left s (Nat.le_refl left)

/-! ## Single bytes -/

theorem Socket.read_one (hlen : 0 < len) (u : Bytes) (cuts : List Nat) :
    Socket.read ⟨u, 1 :: cuts⟩ len = (u.take 1, ⟨u.drop 1, cuts⟩) := by
  have hroom : Socket.room ⟨u, 1 :: cuts⟩ len = 1 := by
    show min len (max 1 1) = 1
    rw [Nat.max_self]
    exact Nat.min_eq_right hlen
  rw [Socket.read, hroom]
  rfl

/-- A stream that comes byte by byte is cut anew behind what was read. -/
theorem Socket.readLoop_ones (hsize : 0 < size) (cuts : List Nat) :
    ∀ (fuel left : Nat) (u : Bytes), left ≤ fuel → left ≤ u.length →
      readLoop size fuel left ⟨u, List.replicate left 1 ++ cuts⟩ =
        (u.take left, ⟨u.drop left, cuts⟩)
  | 0, left, u, hle, _ => by
    rw [Nat.le_zero.mp hle]
    rfl
  | fuel + 1, 0, u, _, _ => by
    rw [readLoop, if_pos rfl]
    rfl
  | fuel + 1, left + 1, [], _, hu => by
    rw [List.length_nil] at hu
    omega
  | fuel + 1, left + 1, c :: u, hle, hu => by
    have hrec := readLoop_ones hsize cuts fuel left u (by omega) (Nat.le_of_succ_le_succ hu)
    rw [readLoop, if_neg (by omega), List.replicate_succ, List.cons_append,
      Socket.read_one (by omega), List.take_succ_cons, List.take_zero, List.drop_succ_cons,
      List.drop_zero]
    simp only [reduceCtorEq, if_false, List.length_singleton, Nat.add_sub_cancel, hrec,
      List.singleton_append, List.take_succ_cons, List.drop_succ_cons]

end

end CommonTools.Lib
