import CommonTools.Http.RecvRequest

/-! # What is written into the content buffer

`recv_request` allocates the buffer for the length that the header says, clears it, copies what
came with the header and what the socket brings, and puts a zero byte behind it. The lengths are
taken as they come: nothing asks whether there is a buffer. -/
namespace CommonTools.Http
open CommonTools.Lib

/-! ## `GetInfo` -/

/-- `GetInfo`, with the byte that stands in memory in front of the header: without a
`Content-Length:` the scan begins there. -/
def getInfoFrom (front : UInt8) (header : Bytes) : Except Stop RequestInfo :=
  match requestLine header with
  | some [.str uri, _, _] =>
    let buf :=
      match find contentLength header with
      | none => front :: header
      | some pos => header.drop pos
    .ok
      { request_url := uri
        content_len :=
          match Scanf.scan (contentLength.map .byte ++ [.space, .int]) (cstr buf) with
          | [.int content_len] => content_len
          | _ => 0
        keep_alive :=
          (find connectionClose header).isNone && (find connectionKeepAlive header).isSome }
  | _ => .error (.returns (-1))

theorem getInfoFrom_of_getInfo {header : Bytes} {info : RequestInfo} (front : UInt8)
    (h : getInfo header = .ok info) : getInfoFrom front header = .ok info := by
  unfold getInfo at h
  unfold getInfoFrom
  cases hfind : find contentLength header with
  | none =>
    simp only [hfind] at h
    split at h <;> cases h
  | some pos =>
    simp only [hfind] at h
    exact h

/-! ## The writes -/

/-- The sizes for which `malloc` gives memory; no object has `2 ^ 63` bytes or more. -/
structure Allocator where
  gives : Nat → Bool
  bounded : ∀ size, 2 ^ 63 ≤ size → gives size = false

def toSize (v : Int) : Nat := (v % 2 ^ 64).toNat

/-- `genContentBuf`: the size of `content_buf`, or `none` for the null pointer. -/
def genContentBuf (malloc : Allocator) (content_len : Int) : Option Nat :=
  if content_len = 0 then none
  else
    let size := toSize (toInt32 (content_len + 10))
    if malloc.gives size then some size else none

/-- `len` bytes are written at `content_buf + off`. -/
structure ContentWrite where
  off : Int
  len : Nat
deriving DecidableEq

/-- The loop of `readn_timeout`: what it writes and returns. Every round reads a byte at
least, which bounds the rounds. -/
def readnLoop (buf_len : Int) : Nat → Nat → Socket → List ContentWrite × Int
  | 0, left, _ => ([], buf_len - left)
  | rounds + 1, left, sock =>
    if left = 0 then ([], buf_len)
    else
      let (buf, sock) := sock.read (min left READ_BUF_SIZE)
      if buf = [] then ([], buf_len - left)
      else
        let (writes, ret) := readnLoop buf_len rounds (left - buf.length) sock
        (⟨buf_len - left, buf.length⟩ :: writes, ret)

/-- `readn_timeout`. -/
def readnWrites (_buffer : Bytes) (sock : Socket) (buf_len : Int) : List ContentWrite × Int :=
  let left := toInt32 (buf_len - _buffer.length)
  if left ≤ 0 then ([⟨0, toSize buf_len⟩], buf_len)
  else
    let (writes, ret) := readnLoop buf_len left.toNat left.toNat sock
    (⟨0, _buffer.length⟩ :: writes, ret)

/-- What `recv_request` writes when the header has been accepted: `memset`, the copies, and the
zero byte behind a whole content. -/
def contentWrites (content_len : Int) (_buffer : Bytes) (sock : Socket) : List ContentWrite :=
  let (writes, ret) := readnWrites _buffer sock content_len
  ⟨0, toSize content_len⟩ :: writes ++ if ret = content_len then [⟨content_len, 1⟩] else []

/-- The write stays in the block, and there is one. -/
def ContentWrite.Inside (block : Option Nat) (w : ContentWrite) : Prop :=
  w.len = 0 ∨ ∃ size ∈ block, 0 ≤ w.off ∧ w.off + w.len ≤ size

/-- When the header is accepted, what is written for it stays in the block and among
`content_len + 10` bytes. -/
def WritesInside (malloc : Allocator) (front : UInt8) (header _buffer : Bytes) (sock : Socket) :
    Prop :=
  ∀ info, getInfoFrom front header = .ok info →
    ∀ w ∈ contentWrites info.content_len _buffer sock,
      w.Inside (genContentBuf malloc info.content_len) ∧ w.off + w.len ≤ info.content_len + 10

/-- The number in the header is positive, ten bytes more are an `int` and memory for them is
there, and the `int` that says how much is left does not wrap to a positive number. -/
def ContentFits (malloc : Allocator) (front : UInt8) (header _buffer : Bytes) : Prop :=
  ∀ info, getInfoFrom front header = .ok info →
    0 < info.content_len ∧ info.content_len + 10 ≤ INT_MAX ∧
      malloc.gives (info.content_len + 10).toNat = true ∧
      (info.content_len ≤ _buffer.length →
        (_buffer.length - info.content_len) % 2 ^ 32 ≤ 2 ^ 31)

/-! ## The length -/

theorem scan_int_range {v : Int} : ∀ {text s : Bytes},
    Scanf.scan (text.map .byte ++ [.space, .int]) s = [.int v] → -2 ^ 31 ≤ v ∧ v ≤ INT_MAX
  | [], s, h => by
    simp only [List.map_nil, List.nil_append, Scanf.scan] at h
    split at h
    · cases h
    · rename_i u t hnumber
      cases h
      have hbounds := Scanf.toInt_bounds u
      unfold INT_MAX
      omega
  | b :: text, s, h => by
    simp only [List.map_cons, List.cons_append, Scanf.scan] at h
    split at h
    · cases h
    · split at h
      · exact scan_int_range h
      · cases h

theorem content_len_range {front : UInt8} {header : Bytes} {info : RequestInfo}
    (h : getInfoFrom front header = .ok info) :
    -2 ^ 31 ≤ info.content_len ∧ info.content_len ≤ INT_MAX := by
  unfold getInfoFrom at h
  split at h
  · cases h
    dsimp only
    split
    · rename_i hscan
      exact scan_int_range hscan
    · decide
  · cases h

section
variable {malloc : Allocator} {v buf_len : Int} {size : Nat}

theorem toSize_nonneg (h : 0 ≤ v) (hmax : v ≤ INT_MAX) : toSize v = v.toNat := by
  unfold INT_MAX at hmax
  unfold toSize
  rw [Int.emod_eq_of_lt h (by omega)]

/-- A negative length becomes more than any block has. -/
theorem le_toSize (h : v < 0) (hmin : -2 ^ 31 ≤ v) : 2 ^ 63 ≤ toSize v := by
  unfold toSize
  omega

theorem genContentBuf_lt (h : genContentBuf malloc v = some size) : size < 2 ^ 63 := by
  unfold genContentBuf at h
  split at h
  · cases h
  · dsimp only at h
    split at h
    · rename_i hgives
      cases h
      by_contra hsize
      rw [malloc.bounded _ (Nat.le_of_not_lt hsize)] at hgives
      cases hgives
    · cases h

/-- The block has ten bytes more than the content. -/
theorem genContentBuf_eq (h : 0 < v) (hmax : v + 10 ≤ INT_MAX) :
    genContentBuf malloc v =
      if malloc.gives (v + 10).toNat then some (v + 10).toNat else none := by
  have hsum : toInt32 (v + 10) = v + 10 := by
    unfold INT_MAX at hmax
    rw [toInt32, Int.bmod_eq_of_le] <;> omega
  unfold genContentBuf
  rw [if_neg (Int.ne_of_gt h), hsum, toSize_nonneg (by omega) hmax]

/-- Close to the largest `int` the sum is negative, and there is no block. -/
theorem genContentBuf_overflow (h : INT_MAX < v + 10) (hmax : v ≤ INT_MAX) :
    genContentBuf malloc v = none := by
  unfold INT_MAX at h hmax
  have hsum : toInt32 (v + 10) = v + 10 - 2 ^ 32 := by
    rw [toInt32, Int.bmod_eq_emod]
    split <;> omega
  unfold genContentBuf
  rw [if_neg (by omega), hsum]
  dsimp only
  rw [malloc.bounded _ (le_toSize (by omega) (by omega))]
  rfl

/-! ## The loop -/

/-- The copies from the socket stay in the content. -/
theorem readnLoop_inside : ∀ {rounds left : Nat} {sock : Socket}, (left : Int) ≤ buf_len →
    ∀ w ∈ (readnLoop buf_len rounds left sock).1, 0 ≤ w.off ∧ w.off + w.len ≤ buf_len
  | 0, left, sock, _, w, hw => by
    rw [readnLoop] at hw
    cases hw
  | rounds + 1, left, sock, hleft, w, hw => by
    rw [readnLoop] at hw
    split at hw
    · cases hw
    · dsimp only at hw
      split at hw
      · cases hw
      · have hlen := @Socket.read_length_le sock (min left READ_BUF_SIZE) (by
          unfold READ_BUF_SIZE
          omega)
        rcases List.mem_cons.mp hw with rfl | hw
        · dsimp only
          omega
        · exact readnLoop_inside (by omega) w hw

/-! ## The condition -/

/-- What is left after the bytes that came with the header; a positive number means that the
content is longer than they are, or that the difference has wrapped. -/
theorem toInt32_left (v : Int) (n : Nat) :
    toInt32 (v - n) ≤ 0 ↔ (n - v) % 2 ^ 32 ≤ 2 ^ 31 := by
  rw [toInt32, Int.bmod_eq_emod]
  split <;> omega

theorem toInt32_left_lt {n : Nat} (h : n < v) (hmax : v ≤ INT_MAX) : toInt32 (v - n) = v - n := by
  unfold INT_MAX at hmax
  rw [toInt32, Int.bmod_eq_of_le] <;> omega

/-- Behind a positive `left` all that came with the header is copied. -/
theorem leftover_copied {_buffer : Bytes} (sock : Socket)
    (hleft : ¬ toInt32 (v - _buffer.length) ≤ 0) :
    (⟨0, _buffer.length⟩ : ContentWrite) ∈ contentWrites v _buffer sock := by
  unfold contentWrites readnWrites
  dsimp only
  rw [if_neg hleft]
  simp

/-- A number that is not positive leads to a write without a block or of a huge length. -/
theorem content_len_pos {_buffer : Bytes} {sock : Socket} (hmin : -2 ^ 31 ≤ v)
    (h : ∀ w ∈ contentWrites v _buffer sock, w.Inside (genContentBuf malloc v)) : 0 < v := by
  rcases Int.lt_trichotomy v 0 with hneg | hzero | hpos
  · have hsize := le_toSize hneg hmin
    rcases h ⟨0, toSize v⟩ List.mem_cons_self with hlen | ⟨size, hblock, -, hle⟩
    · dsimp only at hlen
      omega
    · have hlt := genContentBuf_lt hblock
      dsimp only at hle
      omega
  · have hnull : ∀ w ∈ contentWrites v _buffer sock, w.len = 0 := by
      intro w hw
      rcases h w hw with hlen | ⟨size, hblock, -⟩
      · exact hlen
      · rw [hzero] at hblock
        cases hblock
    by_cases hleft : toInt32 (v - _buffer.length) ≤ 0
    · -- an empty content is whole at once, and the zero byte goes through the null pointer
      have hend : (⟨v, 1⟩ : ContentWrite) ∈ contentWrites v _buffer sock := by
        unfold contentWrites readnWrites
        dsimp only
        rw [if_pos hleft]
        simp
      exact absurd (hnull _ hend) Nat.one_ne_zero
    · have hlen : _buffer.length = 0 := hnull _ (leftover_copied sock hleft)
      rw [hlen, hzero] at hleft
      exact absurd (by decide) hleft
  · exact hpos

/-- When all writes stay inside, `left` has not wrapped. -/
theorem leftover_fits {_buffer : Bytes} {sock : Socket}
    (hblock : genContentBuf malloc v = some size)
    (hsize : (size : Int) ≤ v + 10)
    (h : ∀ w ∈ contentWrites v _buffer sock, w.Inside (genContentBuf malloc v))
    (hle : v ≤ _buffer.length) : (_buffer.length - v) % 2 ^ 32 ≤ 2 ^ 31 := by
  rw [← toInt32_left]
  by_contra hleft
  have hcopy := leftover_copied sock hleft
  rw [toInt32_left] at hleft
  rcases h _ hcopy with hlen | ⟨size', hblock', -, hin⟩
  · dsimp only at hlen
    omega
  · rw [hblock] at hblock'
    cases hblock'
    dsimp only at hin
    omega

/-- Under the condition every write ends in front of the last nine bytes of the block. -/
theorem contentWrites_inside {_buffer : Bytes} {sock : Socket} (hpos : 0 < v)
    (hmax : v + 10 ≤ INT_MAX)
    (hleftover : v ≤ _buffer.length → (_buffer.length - v) % 2 ^ 32 ≤ 2 ^ 31) :
    ∀ w ∈ contentWrites v _buffer sock, 0 ≤ w.off ∧ w.off + w.len ≤ v + 1 := by
  have hclear : (toSize v : Int) = v := by
    rw [toSize_nonneg (by omega) (by omega)]
    omega
  have hread : ∀ w ∈ (readnWrites _buffer sock v).1, 0 ≤ w.off ∧ w.off + w.len ≤ v := by
    unfold readnWrites
    dsimp only
    split
    · intro w hw
      rw [List.mem_singleton.mp hw]
      dsimp only
      omega
    · rename_i hleft
      have hlt : (_buffer.length : Int) < v := by
        by_contra hle
        exact hleft ((toInt32_left v _).mpr (hleftover (by omega)))
      rw [toInt32_left_lt hlt (by omega)]
      intro w hw
      rcases List.mem_cons.mp hw with rfl | hw
      · dsimp only
        omega
      · exact readnLoop_inside (by omega) w hw
  unfold contentWrites
  dsimp only
  intro w hw
  rcases List.mem_append.mp hw with hw | hw
  · rcases List.mem_cons.mp hw with rfl | hw
    · dsimp only
      omega
    · have hin := hread w hw
      omega
  · split at hw
    · rw [List.mem_singleton.mp hw]
      dsimp only
      omega
    · cases hw

end

/-- **When the writes for an accepted header stay in the content buffer.** -/
theorem recvRequest_inside_iff (malloc : Allocator) (front : UInt8) (header _buffer : Bytes)
    (sock : Socket) :
    WritesInside malloc front header _buffer sock ↔ ContentFits malloc front header _buffer := by
  constructor
  · intro h info hinfo
    obtain ⟨hmin, hmax⟩ := content_len_range hinfo
    have hin := fun w hw => (h info hinfo w hw).1
    have hpos := content_len_pos hmin hin
    have hblock : ∃ size, genContentBuf malloc info.content_len = some size := by
      rcases hin ⟨0, toSize info.content_len⟩ List.mem_cons_self with hlen | ⟨size, hblock, -⟩
      · dsimp only at hlen
        rw [toSize_nonneg (by omega) hmax] at hlen
        omega
      · exact ⟨size, hblock⟩
    obtain ⟨size, hblock⟩ := hblock
    have hsum : info.content_len + 10 ≤ INT_MAX := by
      by_contra hover
      rw [genContentBuf_overflow (by omega) hmax] at hblock
      cases hblock
    have heq := @genContentBuf_eq malloc _ hpos hsum
    rw [hblock] at heq
    split at heq
    · rename_i hgives
      cases heq
      exact ⟨hpos, hsum, hgives, leftover_fits hblock (by omega) hin⟩
    · cases heq
  · intro h info hinfo w hw
    obtain ⟨hpos, hsum, hgives, hleftover⟩ := h info hinfo
    obtain ⟨hoff, hend⟩ := contentWrites_inside hpos hsum hleftover w hw
    have heq := @genContentBuf_eq malloc _ hpos hsum
    rw [if_pos hgives] at heq
    refine ⟨.inr ⟨_, heq, hoff, ?_⟩, ?_⟩ <;> omega

/-- Memory for every object that can be. -/
def Allocator.ample : Allocator where
  gives size := decide (size < 2 ^ 63)
  bounded _ h := decide_eq_false (Nat.not_lt.mpr h)

/-- `GET /a HTTP/1.0`. -/
def getHeader : Bytes := [71, 69, 84, 32, 47, 97, 32, 72, 84, 84, 80, 47, 49, 46, 48]

/-- Without a `Content-Length:` the zero byte is written through the null pointer, and with the
length -1 everything is cleared. -/
theorem recvRequest_null :
    ¬ WritesInside Allocator.ample 0 getHeader [] ⟨[], []⟩ ∧
      ¬ WritesInside Allocator.ample 0
        (getHeader ++ [13, 10] ++ contentLength ++ [32, 45, 49]) [] ⟨[], []⟩ := by
  constructor
  · intro h
    have hinfo : getInfoFrom 0 getHeader = .ok ⟨[97], 0, false⟩ := by decide +kernel
    rcases (h _ hinfo ⟨0, 1⟩ (by decide +kernel)).1 with hlen | ⟨size, hblock, -⟩
    · exact absurd hlen Nat.one_ne_zero
    · cases hblock
  · intro h
    have hinfo : getInfoFrom 0 (getHeader ++ [13, 10] ++ contentLength ++ [32, 45, 49]) =
        .ok ⟨[97], -1, false⟩ := by decide +kernel
    exact absurd (h _ hinfo ⟨0, toSize (-1)⟩ List.mem_cons_self).2 (by decide)

/-! ## The requests that have a meaning -/

/-- The content is copied unless what is left has wrapped to a positive number. -/
theorem readnTimeout_defined {v : Int} (hpos : 0 < v) (hmax : v ≤ INT_MAX) (_buffer : Bytes)
    (sock : Socket) :
    if v ≤ _buffer.length → toInt32 (v - _buffer.length) ≤ 0 then
      ∃ r, readnTimeout _buffer sock v = .ok r
    else readnTimeout _buffer sock v = .error .undefined := by
  unfold readnTimeout
  dsimp only
  by_cases hle : v ≤ _buffer.length
  · by_cases hleft : toInt32 (v - _buffer.length) ≤ 0
    · rw [if_pos fun _ => hleft, if_pos hleft, if_pos ⟨by omega, hle⟩]
      exact ⟨_, rfl⟩
    · have hlt : ¬ (_buffer.length : Int) ≤ v := by
        intro hge
        rw [← Int.le_antisymm hge hle, Int.sub_self] at hleft
        exact hleft (by decide)
      rw [if_neg fun h => hleft (h hle), if_neg hleft, if_neg hlt]
  · rw [if_pos fun h => absurd h hle, toInt32_left_lt (by omega) hmax, if_neg (by omega),
      if_pos (by omega)]
    exact ⟨_, rfl⟩

/-- With memory for all, a request with a content is taken in just when its writes stay inside. -/
theorem recvRequest_defined_iff (front : UInt8) {_buffer leftover header : Bytes}
    {sock sock' : Socket} {info : RequestInfo}
    (hread : readHttpHeaderTimeout _buffer sock = .ok (header, leftover, sock'))
    (hinfo : getInfo header = .ok info) (hlen : info.content_len ≠ 0) :
    recvRequest _buffer sock ≠ .nothing .undefined ↔
      ContentFits Allocator.ample front header leftover := by
  have hfront := getInfoFrom_of_getInfo front hinfo
  have hfits : ContentFits Allocator.ample front header leftover ↔
      0 < info.content_len ∧ info.content_len + 10 ≤ INT_MAX ∧
        (info.content_len ≤ leftover.length →
          toInt32 (info.content_len - leftover.length) ≤ 0) := by
    simp only [ContentFits, hfront, Except.ok.injEq, forall_eq', toInt32_left]
    refine and_congr_right fun _ => and_congr_right fun hsum => and_iff_right ?_
    exact decide_eq_true (by unfold INT_MAX at hsum; omega)
  rw [hfits]
  unfold recvRequest
  rw [hread]
  dsimp only
  rw [hinfo]
  dsimp only
  by_cases hrange : info.content_len < 0 ∨ INT_MAX < info.content_len + 10
  · rw [if_pos hrange]
    exact iff_of_false (fun h => h rfl) (by omega)
  rw [if_neg hrange]
  have hpos : 0 < info.content_len := by omega
  have hread := readnTimeout_defined hpos (by omega) leftover sock'
  split at hread
  · rename_i hleft
    obtain ⟨⟨ret, content, _buffer', sock''⟩, hok⟩ := hread
    rw [hok]
    dsimp only
    refine iff_of_true ?_ ⟨hpos, by omega, hleft⟩
    split
    · split
      · exact Received.noConfusion
      · exact Received.noConfusion
    · intro h
      cases h
  · rename_i hleft
    rw [hread]
    exact iff_of_false (fun h => h rfl) fun h => hleft h.2.2

end CommonTools.Http
