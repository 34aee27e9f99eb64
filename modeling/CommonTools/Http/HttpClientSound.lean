import CommonTools.Http.HttpClient

/-! # Responses and the network

`readn_timeout` fills a block before the end of the header is looked for in it,
so how the network cuts the stream never matters to the client. What matters is
where the end of the header falls: it is found when it lies within one block. -/
namespace CommonTools.HttpClient
open CommonTools.Lib CommonTools.Http

/-! ## Blocks -/

section
variable {header₀ header header' part body : Bytes} {len : Int} {s s' : Socket}

/-- The next block is what comes next, and nothing only at the end. -/
theorem readHeaderLoop_step (rounds : Nat) (hne : s.unread ≠ []) :
    ∃ s₁, s₁.unread = s.unread.drop READ_BUF_SIZE ∧ readHeaderLoop (rounds + 1) header s =
      match find crlf2 (cstr (s.unread.take READ_BUF_SIZE)) with
      | some pos =>
        .ok (header ++ cstr ((s.unread.take READ_BUF_SIZE).take (pos + 4)),
          toInt32 (header ++ cstr ((s.unread.take READ_BUF_SIZE).take (pos + 4))).length,
          (s.unread.take READ_BUF_SIZE).drop (pos + 4), s₁)
      | none => readHeaderLoop rounds (header ++ cstr (s.unread.take READ_BUF_SIZE)) s₁ := by
  obtain ⟨hgot, hrest⟩ := Socket.readn_spec (by decide : 0 < READ_BUF_SIZE) READ_BUF_SIZE s
  have hblock : s.unread.take READ_BUF_SIZE ≠ [] := by
    intro hnil
    obtain hz | hz := List.take_eq_nil_iff.mp hnil
    · exact absurd hz (by decide)
    · exact hne hz
  refine ⟨(s.readn READ_BUF_SIZE READ_BUF_SIZE).2, hrest, ?_⟩
  rw [readHeaderLoop]
  simp only [hgot]
  exact if_neg hblock

theorem readHeaderLoop_nil (rounds : Nat) (hnil : s.unread = []) :
    readHeaderLoop (rounds + 1) header s = .error (.returns (-1)) := by
  obtain ⟨hgot, -⟩ := Socket.readn_spec (by decide : 0 < READ_BUF_SIZE) READ_BUF_SIZE s
  rw [hnil, List.take_nil] at hgot
  rw [readHeaderLoop]
  simp only [hgot, if_true]

/-- The header that is returned goes on from what `header` held, without a zero
byte, and an empty line is taken off the stream with it. -/
theorem readHeaderLoop_inv : ∀ {rounds : Nat} {header : Bytes} {s : Socket},
    readHeaderLoop rounds header s = .ok (header', len, part, s') →
      (∃ t, header' = header ++ t ∧ NulFree t) ∧
        part.length + s'.unread.length + 4 ≤ s.unread.length := by
  intro rounds
  induction rounds with
  | zero =>
    intro _ _ h
    exact nomatch h
  | succ rounds ih =>
    intro header s h
    by_cases hnil : s.unread = []
    · rw [readHeaderLoop_nil rounds hnil] at h
      cases h
    · obtain ⟨s₁, hs₁, hstep⟩ := @readHeaderLoop_step header s rounds hnil
      rw [hstep] at h
      split at h
      · rename_i pos hpos
        injection h with h
        obtain ⟨hheader, h⟩ := Prod.mk.inj h
        obtain ⟨-, h⟩ := Prod.mk.inj h
        obtain ⟨hpart, h⟩ := Prod.mk.inj h
        refine ⟨⟨_, hheader.symm, nulFree_cstr _⟩, ?_⟩
        have hle : pos + 4 ≤ _ := find_le hpos
        have hc := (List.takeWhile_prefix (l := s.unread.take READ_BUF_SIZE) (· != 0)).length_le
        change (cstr _).length ≤ _ at hc
        rw [← hpart, ← h, hs₁]
        rw [List.length_take] at hc
        simp only [List.length_drop, List.length_take]
        omega
      · obtain ⟨⟨t, ht, hnul⟩, hlen⟩ := ih h
        refine ⟨⟨_, by rw [ht, List.append_assoc], nulFree_append.mpr ⟨nulFree_cstr _, hnul⟩⟩, ?_⟩
        rw [hs₁, List.length_drop] at hlen
        omega

/-! ## The end of the header -/

theorem length_unread (h : s.unread = header ++ crlf2 ++ body) :
    s.unread.length = header.length + 4 + body.length := by
  rw [h, List.length_append, List.length_append]
  rfl

/-- What is left behind a block that ends in the header. -/
theorem drop_block (hle : READ_BUF_SIZE ≤ header.length) :
    (header ++ crlf2 ++ body).drop READ_BUF_SIZE = header.drop READ_BUF_SIZE ++ crlf2 ++ body := by
  rw [List.append_assoc, List.drop_append_of_le_length hle, List.append_assoc]

theorem length_drop_block_mod (hle : READ_BUF_SIZE ≤ header.length) :
    (header.drop READ_BUF_SIZE).length % READ_BUF_SIZE = header.length % READ_BUF_SIZE := by
  rw [List.length_drop, ← Nat.mod_eq_sub_mod hle]

/-- A block that ends in front of the end of the header does not show it. -/
theorem find_block (hends : find crlf2 (header ++ crlf2) = some header.length)
    (hlt : READ_BUF_SIZE < header.length + 4) :
    find crlf2 (cstr ((header ++ crlf2 ++ body).take READ_BUF_SIZE)) = none := by
  have hhead : (header ++ crlf2).length = header.length + 4 := List.length_append
  have hpre := List.takeWhile_prefix (l := (header ++ crlf2 ++ body).take READ_BUF_SIZE) (· != 0)
  have hlen := hpre.length_le
  rw [List.take_append_of_le_length (by omega)] at hpre hlen ⊢
  refine find_part hends (hpre.trans (List.take_prefix _ _)) ?_
  rw [List.length_take] at hlen
  exact Nat.lt_of_le_of_lt hlen (by omega)

theorem find_next (hends : find crlf2 (header ++ crlf2) = some header.length)
    (hle : READ_BUF_SIZE ≤ header.length) :
    find crlf2 (header.drop READ_BUF_SIZE ++ crlf2) = some (header.drop READ_BUF_SIZE).length := by
  rw [← List.drop_append_of_le_length hle, List.length_drop]
  exact find_drop hends hle

/-- Where the end of the header lies within one block, it is found, and the rest
of the block comes with it. -/
theorem readHeaderLoop_found : ∀ {rounds : Nat} {header₀ header : Bytes} {s : Socket},
    find crlf2 (header ++ crlf2) = some header.length → NulFree header →
    header.length % READ_BUF_SIZE + 4 ≤ READ_BUF_SIZE → s.unread.length < rounds →
    s.unread = header ++ crlf2 ++ body →
      ∃ s', readHeaderLoop rounds header₀ s =
          .ok (header₀ ++ (header ++ crlf2), toInt32 (header₀ ++ (header ++ crlf2)).length,
            body.take (READ_BUF_SIZE - 4 - header.length % READ_BUF_SIZE), s') ∧
        s'.unread = body.drop (READ_BUF_SIZE - 4 - header.length % READ_BUF_SIZE)
  | 0, _, _, _, _, _, _, h, _ => absurd h (Nat.not_lt_zero _)
  | rounds + 1, header₀, header, s, hends, hnul, hfit, hrounds, h => by
    have hhead : (header ++ crlf2).length = header.length + 4 := List.length_append
    have hlen := length_unread h
    obtain ⟨s₁, hs₁, hstep⟩ := @readHeaderLoop_step header₀ s rounds
      (List.ne_nil_of_length_pos (by omega))
    rw [h] at hstep hs₁
    by_cases hlast : header.length < READ_BUF_SIZE
    · have hmod : header.length % READ_BUF_SIZE = header.length := Nat.mod_eq_of_lt hlast
      rw [hmod] at hfit ⊢
      have htext : NulFree (header ++ crlf2) := nulFree_append.mpr ⟨hnul, nulFree_crlf2⟩
      have hleft : READ_BUF_SIZE - (header ++ crlf2).length =
          READ_BUF_SIZE - 4 - header.length := by
        omega
      have hblock : (header ++ crlf2 ++ body).take READ_BUF_SIZE =
          header ++ crlf2 ++ body.take (READ_BUF_SIZE - 4 - header.length) := by
        rw [List.take_append, List.take_of_length_le (by omega), hleft]
      have hfind : find crlf2 (cstr (header ++ crlf2 ++
          body.take (READ_BUF_SIZE - 4 - header.length))) = some header.length := by
        rw [cstr_append_of_nulFree htext]
        exact find_append hends _
      rw [hblock, hfind] at hstep
      dsimp only at hstep
      rw [← hhead, List.take_left, List.drop_left, cstr_eq_self htext] at hstep
      refine ⟨s₁, hstep, ?_⟩
      rw [hs₁, List.drop_append, List.drop_eq_nil_of_le (by omega), List.nil_append, hleft]
    · have hle : READ_BUF_SIZE ≤ header.length := Nat.not_lt.mp hlast
      have hblock : (header ++ crlf2 ++ body).take READ_BUF_SIZE = header.take READ_BUF_SIZE := by
        rw [List.append_assoc, List.take_append_of_le_length hle]
      have hrest : s₁.unread = header.drop READ_BUF_SIZE ++ crlf2 ++ body :=
        hs₁.trans (drop_block hle)
      have hmod := length_drop_block_mod hle
      have hshort : s₁.unread.length < rounds := by
        rw [hs₁, ← h, List.length_drop]
        have hpos : 0 < READ_BUF_SIZE := by decide
        omega
      rw [find_block hends (by omega), hblock, cstr_eq_self (hnul.take _)] at hstep
      dsimp only at hstep
      obtain ⟨s', hok, hs'⟩ := @readHeaderLoop_found rounds (header₀ ++ header.take READ_BUF_SIZE)
        (header.drop READ_BUF_SIZE) s₁ (find_next hends hle) (hnul.drop _)
        (by rw [hmod]; exact hfit) hshort hrest
      have hjoin : header₀ ++ header.take READ_BUF_SIZE ++ (header.drop READ_BUF_SIZE ++ crlf2) =
          header₀ ++ (header ++ crlf2) := by
        rw [List.append_assoc, ← List.append_assoc (header.take _), List.take_append_drop]
      rw [hjoin, hmod] at hok
      rw [hmod] at hs'
      exact ⟨s', hstep.trans hok, hs'⟩

/-- Where two blocks share the end of the header, bytes of the body are taken
for the header. -/
theorem readHeaderLoop_straddled : ∀ {rounds : Nat} {header₀ header : Bytes} {s : Socket},
    find crlf2 (header ++ crlf2) = some header.length →
    READ_BUF_SIZE < header.length % READ_BUF_SIZE + 4 → s.unread = header ++ crlf2 ++ body →
    readHeaderLoop rounds header₀ s = .ok (header', len, part, s') →
      part.length + s'.unread.length < body.length := by
  intro rounds
  induction rounds with
  | zero =>
    intro _ _ _ _ _ _ h
    exact nomatch h
  | succ rounds ih =>
    intro header₀ header s hends hover h hok
    have hlen := length_unread h
    obtain ⟨s₁, hs₁, hstep⟩ := @readHeaderLoop_step header₀ s rounds
      (List.ne_nil_of_length_pos (by omega))
    have hmodle := Nat.mod_le header.length READ_BUF_SIZE
    rw [hstep, h, find_block hends (by omega)] at hok
    dsimp only at hok
    by_cases hlast : header.length < READ_BUF_SIZE
    · obtain ⟨-, htaken⟩ := readHeaderLoop_inv hok
      rw [Nat.mod_eq_of_lt hlast] at hover
      rw [hs₁, List.length_drop] at htaken
      omega
    · have hle : READ_BUF_SIZE ≤ header.length := Nat.not_lt.mp hlast
      refine ih (find_next hends hle) ?_ ?_ hok
      · rw [length_drop_block_mod hle]
        exact hover
      · rw [hs₁, h, drop_block hle]

end

/-! ## One header -/

/-- **Header.** The header is returned as it was sent, with the body behind it,
whatever the network does, exactly when it has no zero byte and its end lies
within one block. -/
theorem readHttpHeaderTimeout_framing_iff (header₀ header body : Bytes)
    (hends : find crlf2 (header ++ crlf2) = some header.length) :
    (∀ cuts, ∃ len part s', readHttpHeaderTimeout header₀ ⟨header ++ crlf2 ++ body, cuts⟩ =
        .ok (header₀ ++ (header ++ crlf2), len, part, s') ∧ part ++ s'.unread = body) ↔
      NulFree header ∧ header.length % READ_BUF_SIZE + 4 ≤ READ_BUF_SIZE := by
  constructor
  · intro h
    obtain ⟨len, part, s', hok, hbody⟩ := h []
    obtain ⟨⟨t, ht, hnul⟩, -⟩ := readHeaderLoop_inv hok
    rw [List.append_cancel_left_eq] at ht
    rw [← ht] at hnul
    refine ⟨(nulFree_append.mp hnul).1, ?_⟩
    by_contra hover
    have hlost := readHeaderLoop_straddled hends (by omega) rfl hok
    rw [← List.length_append, hbody] at hlost
    exact Nat.lt_irrefl _ hlost
  · intro ⟨hnul, hfit⟩ cuts
    obtain ⟨s', hok, hs'⟩ := @readHeaderLoop_found body _ header₀ header
      ⟨header ++ crlf2 ++ body, cuts⟩ hends hnul hfit (Nat.lt_succ_self _) rfl
    refine ⟨_, _, s', hok, ?_⟩
    rw [hs', List.take_append_drop]

theorem readHttpHeaderTimeout_framing_iff_ok :
    ∃ len part s', readHttpHeaderTimeout [] ⟨[79, 75] ++ crlf2 ++ [1, 0, 2], [3, 1]⟩ =
      .ok ([79, 75] ++ crlf2, len, part, s') ∧ part ++ s'.unread = [1, 0, 2] :=
  (readHttpHeaderTimeout_framing_iff [] [79, 75] [1, 0, 2] (by decide)).mpr (by decide) [3, 1]

/-- A header of 61 bytes; its end is shared by two blocks. -/
theorem readHttpHeaderTimeout_straddled :
    ¬ ∀ header₀ header body, find crlf2 (header ++ crlf2) = some header.length →
      ∀ cuts, ∃ len part s', readHttpHeaderTimeout header₀ ⟨header ++ crlf2 ++ body, cuts⟩ =
        .ok (header₀ ++ (header ++ crlf2), len, part, s') ∧ part ++ s'.unread = body := by
  intro h
  obtain ⟨len, part, s', hok, -⟩ := h [] (List.replicate 61 65) [] (by decide +kernel) []
  have herr : readHttpHeaderTimeout [] ⟨List.replicate 61 65 ++ crlf2 ++ [], []⟩ =
      .error (.returns (-1)) := by
    decide +kernel
  rw [herr] at hok
  cases hok

/-! ## One response -/

/-- A response with a field `Content-Length:` that says how long the body is. -/
structure Response where
  header : Bytes
  body : Bytes
  ends : find crlf2 (header ++ crlf2) = some header.length
  text : NulFree header
  before : Bytes
  blanks : Bytes
  digits : Bytes
  after : Bytes
  field : header = before ++ (contentLength ++ (blanks ++ (digits ++ after)))
  blank : blanks.all Scanf.isspace = true
  digit : digits.all Scanf.isdigit = true
  digits_ne_nil : digits ≠ []
  after_digits : after.head?.all (fun c => !Scanf.isdigit c) = true
  sized : Scanf.decimal digits = body.length

namespace Response

def wire (r : Response) : Bytes := r.header ++ crlf2 ++ r.body

/-- How much of the body can come in the block that ends the header. -/
def along (r : Response) : Nat := READ_BUF_SIZE - 4 - r.header.length % READ_BUF_SIZE

/-- The first place where `Content-Length:` stands says how long the body is. -/
def Announced (r : Response) : Prop :=
  0 ≤ findInt contentLength (r.header ++ crlf2) ∧
    scanBodyLen (r.header ++ crlf2) (findInt contentLength (r.header ++ crlf2)).toNat =
      r.body.length

instance (r : Response) : Decidable r.Announced := inferInstanceAs (Decidable (_ ∧ _))

/-- The field is announced when its name stands nowhere in front of it. -/
theorem announced_of_first (r : Response) (hlen : r.body.length < 2 ^ 32)
    (hint : (r.before.length : Int) ≤ INT_MAX)
    (hfirst : find contentLength r.header = some r.before.length) : r.Announced := by
  have hpos : findInt contentLength (r.header ++ crlf2) = r.before.length :=
    findInt_some (find_append hfirst crlf2) hint
  have htext : NulFree (r.header ++ crlf2) := nulFree_append.mpr ⟨r.text, nulFree_crlf2⟩
  have hdrop : cstr ((r.header ++ crlf2).drop r.before.length) =
      contentLength ++ (r.blanks ++ (r.digits ++ (r.after ++ crlf2))) := by
    rw [cstr_eq_self (htext.drop _), r.field]
    simp only [List.append_assoc, List.drop_left]
  have hafter : ∀ d ∈ (r.after ++ crlf2).head?, Scanf.isdigit d = false := by
    have hfield := r.after_digits
    intro d hd
    cases hafter : r.after with
    | nil =>
      rw [hafter] at hd
      cases hd
      rfl
    | cons c t =>
      rw [hafter] at hd hfield
      cases hd
      simpa using hfield
  have hscan := @Scanf.scan_int r.blanks r.digits (r.after ++ crlf2) (List.all_eq_true.mp r.blank)
    r.digits_ne_nil (List.all_eq_true.mp r.digit) hafter
  refine ⟨by rw [hpos]; exact Int.natCast_nonneg _, ?_⟩
  rw [hpos, Int.toNat_natCast, scanBodyLen, hdrop, Scanf.scan_bytes, hscan, r.sized]
  dsimp only
  rw [Scanf.toInt_emod hlen, Int.toNat_natCast]

end Response

/-- What a `recv` that returns 0 has found. -/
theorem recv_inv {header header' body : Bytes} {max_buf_len body_len : Nat} {s s' : Socket}
    (h : recv header max_buf_len s = .ok (header', body, body_len, s')) :
    ∃ len part s₁ got, readHttpHeaderTimeout header s = .ok (header', len, part, s₁) ∧
      0 ≤ findInt contentLength header' ∧
      body_len = scanBodyLen header' (findInt contentLength header').toNat ∧
      body = part ++ got ∧ got <+: s₁.unread ∧
      0 < toInt32 ((body_len : Int) - part.length) ∧
      (got.length : Int) = toInt32 ((body_len : Int) - part.length) := by
  unfold recv recvWith at h
  split at h
  · cases h
  · cases h
  · rename_i header₁ len part s₁ hheader
    dsimp only at h
    split at h
    · split at h
      · cases h
      · rename_i hidx
        split at h
        · cases h
        · split at h
          · cases h
          · split at h
            · cases h
            · rename_i hneed
              rw [readnTimeout, if_neg hneed] at h
              dsimp only at h
              split at h
              · cases h
              · rename_i hret
                cases h
                refine ⟨len, part, s₁, _, hheader, by omega, rfl, rfl, ?_, by omega,
                  Decidable.not_not.mp hret⟩
                rw [(Socket.readn_spec (by decide) _ _).1]
                exact List.take_prefix ..
    · split at h
      · cases h
      · cases h

/-- A header whose end lies within one block is found in front of the part of the
body that comes in this block. -/
theorem Response.header_found (r : Response)
    (hfit : r.header.length % READ_BUF_SIZE + 4 ≤ READ_BUF_SIZE) (cuts : List Nat) : ∃ s₁,
    readHttpHeaderTimeout [] ⟨r.wire, cuts⟩ = .ok (r.header ++ crlf2,
      toInt32 (r.header ++ crlf2).length, r.body.take r.along, s₁) ∧
    s₁.unread = r.body.drop r.along := by
  obtain ⟨s₁, hok, hs₁⟩ := @readHeaderLoop_found r.body _ [] r.header ⟨r.wire, cuts⟩ r.ends r.text
    hfit (Nat.lt_succ_self _) rfl
  rw [List.nil_append] at hok
  exact ⟨s₁, hok, hs₁⟩

/-- Asked for no more than is unread, `readn_timeout` returns all of it. -/
theorem readnTimeout_enough {s : Socket} {n : Int} (hpos : 0 < n) (hn : n ≤ s.unread.length) :
    ∃ s', readnTimeout n s = (n, s.unread.take n.toNat, s') := by
  obtain ⟨hgot, -⟩ := Socket.readn_spec (by decide : 0 < READ_BUF_SIZE) n.toNat s
  have hlen : ((s.unread.take n.toNat).length : Int) = n := by
    rw [List.length_take]
    omega
  refine ⟨(s.readn READ_BUF_SIZE n.toNat).2, ?_⟩
  rw [readnTimeout, if_neg (by omega)]
  dsimp only
  rw [hgot, hlen]

/-- **Responses.** A response is delivered, whatever the network does, exactly
when its field is announced, the end of the header lies within one block, the
block does not bring the whole body, and an `int` can say what is left of it. -/
theorem recv_complete_iff (r : Response) (max_buf_len : Nat) (hmax : r.body.length ≤ max_buf_len) :
    (∀ cuts, ∃ header s', recv [] max_buf_len ⟨r.wire, cuts⟩ =
        .ok (header, r.body, r.body.length, s')) ↔
      r.Announced ∧ r.header.length % READ_BUF_SIZE + 4 ≤ READ_BUF_SIZE ∧
        r.along < r.body.length ∧ (r.body.length : Int) - r.along ≤ INT_MAX := by
  constructor
  · intro h
    obtain ⟨header, s', hok⟩ := h []
    obtain ⟨len, part, s₁, got, hheader, hidx, hscan, hbody, hgot, hneed, hlen⟩ := recv_inv hok
    have hgot := hgot.length_le
    have htotal := congrArg List.length hbody
    rw [List.length_append] at htotal
    have hfit : r.header.length % READ_BUF_SIZE + 4 ≤ READ_BUF_SIZE := by
      by_contra hover
      have hlost := readHeaderLoop_straddled r.ends (by omega) rfl hheader
      omega
    obtain ⟨s₂, hok₂, -⟩ := r.header_found hfit []
    simp only [hok₂, Except.ok.injEq, Prod.mk.injEq] at hheader
    obtain ⟨rfl, -, hpart, -⟩ := hheader
    have hplen : (r.body.take r.along).length = part.length := congrArg List.length hpart
    rw [List.length_take] at hplen
    have hmax := toInt32_le ((r.body.length : Int) - part.length)
    exact ⟨⟨hidx, hscan.symm⟩, hfit, by omega, by omega⟩
  · intro ⟨⟨hidx, hscan⟩, hfit, hpart, hint⟩ cuts
    obtain ⟨s₁, hok, hs₁⟩ := r.header_found hfit cuts
    have hplen : (r.body.take r.along).length = r.along := by
      rw [List.length_take]
      omega
    have hneed : toInt32 ((r.body.length : Int) - r.along) = r.body.length - r.along := by
      have hn := @toInt32_natCast (r.body.length - r.along) (by omega)
      rwa [Int.natCast_sub (Nat.le_of_lt hpart)] at hn
    have hrest : (s₁.unread.length : Int) = r.body.length - r.along := by
      rw [hs₁, List.length_drop]
      omega
    obtain ⟨s', hread⟩ := @readnTimeout_enough s₁ _ (by omega) (Int.le_of_eq hrest.symm)
    rw [List.take_of_length_le (by omega)] at hread
    refine ⟨r.header ++ crlf2, s', ?_⟩
    unfold recv recvWith
    rw [hok]
    dsimp only
    rw [if_pos (by omega), if_neg (by omega), hscan, if_neg (by omega), hplen, if_neg (by omega),
      hneed, if_neg (by omega), hread]
    dsimp only
    rw [if_neg (not_not_intro rfl), hs₁, List.take_append_drop]

/-- `OK` and `Content-Length: 40`. -/
def okForty : Response where
  header := [79, 75, 13, 10] ++ (contentLength ++ [32, 52, 48])
  body := List.replicate 40 65
  ends := by decide +kernel
  text := by decide
  before := [79, 75, 13, 10]
  blanks := [32]
  digits := [52, 48]
  after := []
  field := rfl
  blank := by decide
  digit := by decide
  digits_ne_nil := by decide
  after_digits := by decide
  sized := by decide

/-- `OK` and `Content-Length: 3`. -/
def okThree : Response where
  header := [79, 75, 13, 10] ++ (contentLength ++ [32, 51])
  body := [65, 66, 67]
  ends := by decide +kernel
  text := by decide
  before := [79, 75, 13, 10]
  blanks := [32]
  digits := [51]
  after := []
  field := rfl
  blank := by decide
  digit := by decide
  digits_ne_nil := by decide
  after_digits := by decide
  sized := by decide

theorem recv_complete_iff_forty : ∃ header s', recv [] 100 ⟨okForty.wire, [3, 50]⟩ =
    .ok (header, okForty.body, okForty.body.length, s') :=
  (recv_complete_iff okForty 100 (by decide)).mpr (by decide +kernel) [3, 50]

/-- The whole body comes in the block that ends the header, and `recv` returns -1. -/
theorem recv_alongside :
    ¬ ∀ (r : Response) (max_buf_len : Nat), r.body.length ≤ max_buf_len →
      ∀ cuts, ∃ header s', recv [] max_buf_len ⟨r.wire, cuts⟩ =
        .ok (header, r.body, r.body.length, s') := by
  intro h
  obtain ⟨header, s', hok⟩ := h okThree 100 (by decide) []
  have herr : recv [] 100 ⟨okThree.wire, []⟩ = .error (.returns (-1)) := by decide +kernel
  rw [herr] at hok
  cases hok

end CommonTools.HttpClient
