import CommonTools.Http.HttpRequest

/-! # What the server reads of a request

The server gets the header and the content of every request back as they were
printed. Whether it finds the method, the length and the connection that the
client meant depends on what else stands in the header. -/
namespace CommonTools.HttpClient
open CommonTools.Lib CommonTools.Http

/-! ## The lines of a header -/

/-- The first empty line stands behind the last of the lines. -/
theorem find_crlf2_lines : ∀ {lines : List Bytes} {line : Bytes},
    (∀ l ∈ line :: lines, l ≠ [] ∧ 13 ∉ l) →
      find crlf2 (((line :: lines).map (· ++ lineSep)).flatten ++ lineSep) =
        some (((line :: lines).map (· ++ lineSep)).flatten.length - 2)
  | [], line, h => by
    have hend : find crlf2 (lineSep ++ lineSep) = some 0 := by decide
    have hskip := find_skip hend (h line List.mem_cons_self).2
    rw [List.map_singleton, List.flatten_singleton, List.append_assoc, List.length_append]
    exact hskip
  | next :: lines, line, h => by
    have ih := @find_crlf2_lines lines next fun l hl => h l (List.mem_cons_of_mem line hl)
    have hnext := h next (List.mem_cons_of_mem line List.mem_cons_self)
    rw [List.map_cons, List.flatten_cons, List.append_assoc, List.append_assoc, List.length_append]
    have hlen : 2 ≤ ((((next :: lines).map (· ++ lineSep)).flatten).length) := by
      rw [List.map_cons, List.flatten_cons, List.length_append, List.length_append]
      simp only [lineSep, List.length_cons]
      omega
    have hhead : (((next :: lines).map (· ++ lineSep)).flatten ++ lineSep).head? ≠ some 13 := by
      cases next with
      | nil => exact absurd rfl hnext.1
      | cons c next =>
        intro hc
        have hc' : c = 13 := Option.some.inj hc
        exact hnext.2 (hc' ▸ List.mem_cons_self)
    generalize hrest : ((next :: lines).map (· ++ lineSep)).flatten = rest at ih hlen hhead ⊢
    -- the line end in front of the next line is not yet an empty line
    have hsep : find crlf2 (13 :: 10 :: (rest ++ lineSep)) = some (rest.length - 2 + 1 + 1) := by
      refine find_cons (fun hpre => hhead ?_) (find_cons (fun hpre => ?_) ih)
      · obtain ⟨t, ht⟩ := hpre
        have htail := (List.cons.inj (List.cons.inj ht).2).2
        rw [← htail]
        rfl
      · exact absurd (List.cons_prefix_cons.mp hpre).1 (by decide)
    have hskip := find_skip hsep (h line List.mem_cons_self).2
    have hlens : (line ++ lineSep).length = line.length + 2 := List.length_append
    rw [hlens]
    refine hskip.trans (congrArg some ?_)
    omega

theorem httpHeaderFieldNames_text :
    ∀ e ∈ httpHeaderFieldNames, e.2 ≠ [] ∧ 13 ∉ e.2 ∧ NulFree e.2 ∧ e.2.length < 2 ^ 16 := by
  decide +kernel

theorem httpMethodName_text (m : HttpMethod) :
    httpMethodName m ≠ [] ∧ 13 ∉ httpMethodName m ∧ NulFree (httpMethodName m) := by
  cases m <;> decide

theorem httpVersionStr_text (v : HttpVersion) :
    13 ∉ httpVersionStr v ∧ NulFree (httpVersionStr v) := by
  cases v <;> decide

namespace HttpRequest

/-- The requests in question: a url without blanks, fields of one line, and a
text to send. -/
structure Plain (q : HttpRequest) : Prop where
  slash : q.url.head? = some 47
  url : ∀ c ∈ q.url, Scanf.isspace c = false
  fields : ∀ {f v}, q.parts.field_vals f = some v → ∀ c ∈ v, c ≠ 13 ∧ c ≠ 10
  content_ne : q.content ≠ []
  content_text : NulFree q.content

def fieldTexts (q : HttpRequest) : List Bytes :=
  httpHeaderFieldNames.filterMap fun (field, name) =>
    (q.parts.field_vals field).map fun val => name ++ val

theorem lines_eq (q : HttpRequest) :
    q.parts.lines httpHeaderFieldNames = q.fieldTexts.map (· ++ lineSep) := by
  rw [fieldTexts, List.map_filterMap, Parts.lines]
  refine List.filterMap_congr fun e _ => ?_
  rw [Option.map_map]
  rfl

theorem head_eq_lines (q : HttpRequest) :
    q.parts.head httpHeaderFieldNames (q.requestText ++ lineSep) =
      ((q.requestText :: q.fieldTexts).map (· ++ lineSep)).flatten ++ lineSep := by
  rw [Parts.head, q.lines_eq, List.map_cons, List.flatten_cons,
    List.append_assoc (q.requestText ++ lineSep)]

section
variable {q : HttpRequest}

theorem Plain.lines (h : q.Plain) :
    ∀ l ∈ q.requestText :: q.fieldTexts, (l ≠ [] ∧ 13 ∉ l) ∧ NulFree l := by
  intro l hl
  rcases List.mem_cons.mp hl with rfl | hl
  · obtain ⟨hne, hcr, hnul⟩ := httpMethodName_text q.method
    obtain ⟨hcr', hnul'⟩ := httpVersionStr_text q.version
    have hurl : 13 ∉ q.url := fun hmem => absurd (h.url 13 hmem) (by decide)
    refine ⟨⟨by simp [requestText, hne], ?_⟩, ?_⟩
    · simp [requestText, hcr, hcr', hurl]
    · simp only [requestText, nulFree_append, hnul, hnul', q.url_text, and_true, true_and]
      decide
  · obtain ⟨⟨field, name⟩, hmem, hval⟩ := List.mem_filterMap.mp hl
    obtain ⟨val, hset, rfl⟩ := Option.map_eq_some_iff.mp hval
    obtain ⟨hne, hcr, hnul, -⟩ := httpHeaderFieldNames_text _ hmem
    have hval : 13 ∉ val := fun hmem => (h.fields hset 13 hmem).1 rfl
    exact ⟨⟨by simp [hne], by simp [hcr, hval]⟩, hnul.append (q.parts.value hset).1⟩

/-- The header ends where the first empty line stands. -/
theorem Plain.header_ends (h : q.Plain) :
    q.parts.head httpHeaderFieldNames (q.requestText ++ lineSep) = q.header ++ crlf2 ∧
      find crlf2 (q.header ++ crlf2) = some q.header.length := by
  have hfind := find_crlf2_lines fun l hl => (h.lines l hl).1
  have hlen : (((q.requestText :: q.fieldTexts).map (· ++ lineSep)).flatten ++ lineSep).length =
      ((q.requestText :: q.fieldTexts).map (· ++ lineSep)).flatten.length + 2 := List.length_append
  rw [← q.head_eq_lines] at hfind hlen
  have hle := find_le hfind
  obtain ⟨⟨-, t, ht⟩, -⟩ := find_eq_some_iff.mp hfind
  have hpos : q.header.length =
      ((q.requestText :: q.fieldTexts).map (· ++ lineSep)).flatten.length - 2 := by
    rw [header, List.length_take, hlen]
    simp only [crlf2, List.length_cons, List.length_nil] at hle ⊢
    omega
  have hend : t = [] := by
    have htail := congrArg List.length ht
    rw [List.length_append, List.length_drop] at htail
    simp only [crlf2, List.length_cons, List.length_nil] at htail
    exact List.length_eq_zero_iff.mp (by omega)
  have heq : q.parts.head httpHeaderFieldNames (q.requestText ++ lineSep) = q.header ++ crlf2 := by
    have hsplit := List.take_append_drop q.header.length
      (q.parts.head httpHeaderFieldNames (q.requestText ++ lineSep))
    have htake : q.header = (q.parts.head httpHeaderFieldNames (q.requestText ++ lineSep)).take
        q.header.length := List.prefix_iff_eq_take.mp (List.take_prefix _ _)
    rw [← htake, hpos, ← ht, hend, List.append_nil] at hsplit
    exact hsplit.symm
  refine ⟨heq, ?_⟩
  rw [← heq, hfind, hpos]

theorem Plain.header_text (h : q.Plain) : NulFree q.header := by
  rw [header, q.head_eq_lines]
  refine NulFree.take (NulFree.append ?_ (by decide)) _
  intro c hc
  obtain ⟨line, hline, hmem⟩ := List.mem_flatten.mp hc
  obtain ⟨text, htext, rfl⟩ := List.mem_map.mp hline
  exact (h.lines text htext).2.append (by decide) c hmem

theorem Plain.line_in_header (h : q.Plain) {line : Bytes}
    (hline : line ∈ q.requestText :: q.fieldTexts) : ∃ a b, q.header = a ++ (line ++ b) := by
  obtain ⟨before, after, hsplit⟩ := List.append_of_mem hline
  have heq := h.header_ends.1
  rw [q.head_eq_lines, hsplit, List.map_append, List.map_cons, List.flatten_append,
    List.flatten_cons] at heq
  generalize (before.map (· ++ lineSep)).flatten = u at heq
  generalize (after.map (· ++ lineSep)).flatten = w at heq
  -- a line is followed by the end of a line at least
  have hlen := congrArg List.length heq
  have htake := congrArg (List.take q.header.length) heq
  rw [List.take_left] at htake
  simp only [List.length_append, crlf2, lineSep, List.length_cons, List.length_nil] at hlen
  refine ⟨u, (lineSep ++ w ++ lineSep).take (q.header.length - (u.length + line.length)), ?_⟩
  have hsame : u ++ (line ++ lineSep ++ w) ++ lineSep =
      (u ++ line) ++ (lineSep ++ w ++ lineSep) := by simp only [List.append_assoc]
  rw [hsame, List.take_append, List.take_of_length_le (by rw [List.length_append]; omega),
    List.length_append, List.append_assoc] at htake
  exact htake.symm

theorem Plain.field_in_header (h : q.Plain) (field : HttpHeaderField) (name : Bytes) {val : Bytes}
    (hname : (field, name) ∈ httpHeaderFieldNames) (hset : q.parts.field_vals field = some val) :
    ∃ a b, q.header = a ++ (name ++ val ++ b) := by
  refine h.line_in_header (List.mem_cons_of_mem _ (List.mem_filterMap.mpr ⟨_, hname, ?_⟩))
  dsimp only
  rw [hset]
  rfl

theorem Plain.content_buff (h : q.Plain) : q.parts.content_buff = some q.content := by
  cases hc : q.parts.content_buff with
  | none =>
    refine absurd ?_ h.content_ne
    rw [content, hc]
    rfl
  | some c => rw [content, hc, Option.getD_some]

/-- The length of the content is announced. -/
theorem Plain.length_found (h : q.Plain) : ∃ pos, find contentLength q.header = some pos := by
  obtain ⟨a, b, hab⟩ := h.field_in_header .Content_Length (ascii "Content-Length: ") (by decide)
    (q.parts.body_len h.content_buff)
  refine Option.isSome_iff_exists.mp (@find_isSome _ contentLength _ _ a
    (32 :: (decimalText q.content.length ++ b)) ?_)
  rw [hab, List.append_assoc]
  rfl

/-- The two values of the connection that the server looks for. -/
theorem Plain.close_found (h : q.Plain)
    (hset : q.parts.field_vals .Connection = some (ascii "close")) :
    (find connectionClose q.header).isSome := by
  obtain ⟨a, b, hab⟩ := h.field_in_header .Connection (ascii "Connection: ") (by decide) hset
  have htext : ascii "Connection: " ++ ascii "close" = connectionClose := by decide
  rw [htext] at hab
  exact find_isSome hab

theorem Plain.keepAlive_found (h : q.Plain)
    (hset : q.parts.field_vals .Connection = some (ascii "keep-alive")) :
    (find connectionKeepAlive q.header).isSome := by
  obtain ⟨a, b, hab⟩ := h.field_in_header .Connection (ascii "Connection: ") (by decide) hset
  have htext : ascii "Connection: " ++ ascii "keep-alive" = connectionKeepAlive := by decide
  rw [htext] at hab
  exact find_isSome hab

end

/-! ## `GetInfo` -/

/-- The request line that the server finds: that of the first method that
occurs, where it occurs first. -/
theorem requestLine_iff {header : Bytes} (hnul : NulFree header) {uri : Bytes}
    {major minor : Scanf.Value} : requestLine header = some [.str uri, major, minor] ↔
      ∃ before method after pos, requestMethods = before ++ method :: after ∧
        (∀ m ∈ before, find m header = none) ∧ find method header = some pos ∧
        Scanf.Matches (requestFormat method) [.str uri, major, minor] (header.drop pos) := by
  have hthree : ∀ method, Scanf.conversions (requestFormat method) = 3 := fun method =>
    Scanf.conversions_bytes _ method
  rw [requestLine, List.findSome?_eq_some_iff]
  simp only [Option.map_eq_some_iff, Option.map_eq_none_iff, Scanf.matches_iff, hthree,
    List.length_cons, List.length_nil, and_true, cstr_eq_self (hnul.drop _)]
  constructor
  · rintro ⟨before, method, after, hsplit, ⟨pos, hpos, hscan⟩, hbefore⟩
    exact ⟨before, method, after, pos, hsplit, hbefore, hpos, hscan⟩
  · rintro ⟨before, method, after, pos, hsplit, hbefore, hpos, hscan⟩
    exact ⟨before, method, after, hsplit, ⟨pos, hpos, hscan⟩, hbefore⟩

theorem getInfo_line {header : Bytes} {info : RequestInfo} (h : getInfo header = .ok info) :
    ∃ major minor, requestLine header = some [.str info.request_url, major, minor] := by
  rw [getInfo] at h
  split at h
  · rename_i uri major minor hline
    split at h
    · cases h
    · obtain rfl := Except.ok.inj h
      exact ⟨major, minor, hline⟩
  · cases h

/-- The number that `sscanf` reads behind `Content-Length:`, or 0. -/
def scannedLength (header : Bytes) (pos : Nat) : Int :=
  match Scanf.scan (contentLength.map .byte ++ [.space, .int]) (cstr (header.drop pos)) with
  | [.int content_len] => content_len
  | _ => 0

theorem getInfo_eq {header uri : Bytes} {major minor : Scanf.Value} {pos : Nat}
    (hline : requestLine header = some [.str uri, major, minor])
    (hpos : find contentLength header = some pos) :
    getInfo header = .ok
      { request_url := uri
        content_len := scannedLength header pos
        keep_alive :=
          (find connectionClose header).isNone && (find connectionKeepAlive header).isSome } := by
  rw [getInfo, hline]
  simp only [hpos]
  rfl

/-- `Content-Length: %d`. -/
def lengthFormat : List Scanf.Directive := contentLength.map .byte ++ [.space, .int]

theorem scannedLength_iff {header : Bytes} (hnul : NulFree header) (pos : Nat) {n : Int}
    (hn : n ≠ 0) : scannedLength header pos = n ↔
      Scanf.Matches lengthFormat [.int n] (header.drop pos) := by
  have hone : Scanf.conversions lengthFormat = 1 := Scanf.conversions_bytes _ contentLength
  rw [Scanf.matches_iff, hone, scannedLength, cstr_eq_self (hnul.drop _)]
  simp only [List.length_cons, List.length_nil, and_true, lengthFormat]
  constructor
  · intro h
    split at h
    · rename_i v hscan
      rw [hscan, h]
    · exact absurd h.symm hn
  · intro h
    rw [h]

/-! ## Both sides -/

/-- The server reads the request from its connection as the client meant it. -/
def ParsesBack (q : HttpRequest) (sock : Socket) : Prop :=
  ∃ header buffer sock₁ info buffer' sock₂,
    Http.readHttpHeaderTimeout [] sock = .ok (header, buffer, sock₁) ∧ getInfo header = .ok info ∧
    info.request_url = q.url.tail ∧ info.content_len = q.content.length ∧
    (q.parts.field_vals .Connection = some (ascii "close") → info.keep_alive = false) ∧
    (q.parts.field_vals .Connection = some (ascii "keep-alive") → info.keep_alive = true) ∧
    Http.readnTimeout buffer sock₁ info.content_len =
      .ok (info.content_len, q.content, buffer', sock₂)

/-- Nothing in the header is taken for another part of the request: where the
first method that occurs stands first, there is a request line for the url; the
first `Content-Length:` is followed by the length; and a connection that is to
be kept is nowhere said to be closed. -/
structure Unambiguous (q : HttpRequest) : Prop where
  line : ∃ before method after pos major minor, requestMethods = before ++ method :: after ∧
    (∀ m ∈ before, find m q.header = none) ∧ find method q.header = some pos ∧
    Scanf.Matches (requestFormat method) [.str q.url.tail, major, minor] (q.header.drop pos)
  length : ∃ pos, find contentLength q.header = some pos ∧
    Scanf.Matches lengthFormat [.int q.content.length] (q.header.drop pos)
  connection : q.parts.field_vals .Connection = some (ascii "keep-alive") →
    find connectionClose q.header = none

section
variable {q : HttpRequest}

/-- What `GetInfo` has to find in the header. -/
theorem Plain.getInfo_iff (h : q.Plain) :
    (∃ info, getInfo q.header = .ok info ∧ info.request_url = q.url.tail ∧
      info.content_len = q.content.length ∧
      (q.parts.field_vals .Connection = some (ascii "close") → info.keep_alive = false) ∧
      (q.parts.field_vals .Connection = some (ascii "keep-alive") → info.keep_alive = true)) ↔
      q.Unambiguous := by
  obtain ⟨pos, hpos⟩ := h.length_found
  have hlen : (q.content.length : Int) ≠ 0 := by
    have hne := List.length_pos_iff.mpr h.content_ne
    omega
  constructor
  · rintro ⟨info, hinfo, hurl, hsize, -, hkeep⟩
    obtain ⟨major, minor, hline⟩ := getInfo_line hinfo
    rw [getInfo_eq hline hpos] at hinfo
    rw [← Except.ok.inj hinfo] at hsize hkeep
    rw [hurl] at hline
    obtain ⟨before, method, after, start, hrest⟩ := (requestLine_iff h.header_text).mp hline
    refine ⟨⟨before, method, after, start, major, minor, hrest⟩,
      ⟨pos, hpos, (scannedLength_iff h.header_text pos hlen).mp hsize⟩, fun hset => ?_⟩
    have hboth := hkeep hset
    rw [Bool.and_eq_true, Option.isNone_iff_eq_none] at hboth
    exact hboth.1
  · rintro ⟨⟨before, method, after, start, major, minor, hrest⟩, ⟨pos', hpos', hscan⟩, hclose⟩
    have hline := (requestLine_iff h.header_text).mpr ⟨before, method, after, start, hrest⟩
    refine ⟨_, getInfo_eq hline hpos', rfl,
      (scannedLength_iff h.header_text pos' hlen).mpr hscan, fun hset => ?_, fun hset => ?_⟩
    · obtain ⟨at', hat⟩ := Option.isSome_iff_exists.mp (h.close_found hset)
      simp only [hat, Option.isNone_some, Bool.false_and]
    · simp only [hclose hset, h.keepAlive_found hset, Option.isNone_none, Bool.true_and]

theorem requestText_ne_nil (q : HttpRequest) : q.requestText ++ lineSep ≠ [] := by
  simp [lineSep]

/-- What a dump with room to spare has written. -/
theorem Plain.dumped (h : q.Plain) {dest : Bytes} {max_dest_len : Nat} {d : Dumped}
    (hdest : dest.length = max_dest_len) (hint : (max_dest_len : Int) ≤ INT_MAX)
    (hok : q.dumpToBuff dest max_dest_len = .ok d) (hret : d.ret = 0)
    (hroom : d.len < max_dest_len) :
    d.dest.take d.len.toNat = q.header ++ crlf2 ++ q.content ∧
      (q.header.length : Int) + 4 + q.content.length < INT_MAX := by
  obtain ⟨hfits, htake⟩ := dumpToBuff_success q.requestText_ne_nil
    (fun e he => (httpHeaderFieldNames_text e he).2.2.2) hdest hint hok hret hroom
  rw [Parts.serialise, h.header_ends.1] at hfits htake
  refine ⟨htake, ?_⟩
  simp only [List.length_append, crlf2, List.length_cons, List.length_nil] at hfits
  have hcontent : q.content.length = (q.parts.content_buff.getD []).length := rfl
  omega

/-- The server gets the header and the content as they were written, however
the network cuts them. -/
theorem Plain.read_back (h : q.Plain)
    (hint : (q.header.length : Int) + 4 + q.content.length < INT_MAX) (cuts : List Nat) :
    ∃ buffer sock₁ buffer' sock₂,
      Http.readHttpHeaderTimeout [] ⟨q.header ++ crlf2 ++ q.content, cuts⟩ =
        .ok (q.header, buffer, sock₁) ∧
      Http.readnTimeout buffer sock₁ q.content.length =
        .ok (q.content.length, q.content, buffer', sock₂) := by
  have hline : 6 ≤ q.header.length := by
    obtain ⟨a, b, hab⟩ := h.line_in_header List.mem_cons_self
    have hversion : (httpVersionStr q.version).length = 8 := by
      cases q.version <;> decide
    rw [hab, requestText]
    simp only [List.length_append]
    omega
  obtain ⟨buffer, junk, sock₁, hheader, hrest, hlen, hjunk⟩ :=
    Http.readHeaderLoop_spec h.header_ends.2 (by omega) h.header_text (h.content_text.take _)
      ((q.header ++ crlf2 ++ q.content).length + 1) [] []
      ⟨q.header ++ crlf2 ++ q.content, cuts⟩ (Nat.lt_succ_self _)
      (by rw [List.length_nil]; omega) (by rw [List.nil_append, List.append_nil])
  obtain ⟨buffer', sock₂, hcontent, -, -⟩ := Http.readnTimeout_spec (by omega) hlen hrest
  exact ⟨buffer, sock₁, buffer', sock₂, hheader, hcontent⟩

/-- **When the server reads what the client wrote.** A request that was dumped
with room to spare is parsed back exactly when its header is unambiguous. -/
theorem parsesBack_iff (h : q.Plain) {dest : Bytes} {max_dest_len : Nat} {d : Dumped}
    (hdest : dest.length = max_dest_len) (hint : (max_dest_len : Int) ≤ INT_MAX)
    (hok : q.dumpToBuff dest max_dest_len = .ok d) (hret : d.ret = 0)
    (hroom : d.len < max_dest_len) (cuts : List Nat) :
    q.ParsesBack ⟨d.dest.take d.len.toNat, cuts⟩ ↔ q.Unambiguous := by
  obtain ⟨hbytes, hsize⟩ := h.dumped hdest hint hok hret hroom
  obtain ⟨buffer, sock₁, buffer', sock₂, hheader, hcontent⟩ := h.read_back hsize cuts
  rw [← h.getInfo_iff, hbytes]
  constructor
  · rintro ⟨header, _, _, info, _, _, hread, hinfo, hurl, hlen, hclose, hkeep, -⟩
    rw [hheader] at hread
    obtain ⟨rfl, -⟩ := Prod.mk.inj (Except.ok.inj hread)
    exact ⟨info, hinfo, hurl, hlen, hclose, hkeep⟩
  · rintro ⟨info, hinfo, hurl, hlen, hclose, hkeep⟩
    refine ⟨q.header, buffer, sock₁, info, buffer', sock₂, hheader, hinfo, hurl, hlen, hclose,
      hkeep, ?_⟩
    rw [hlen]
    exact hcontent

theorem str_ne_nil {ds : List Scanf.Directive} {vs : List Scanf.Value} {s : Bytes}
    (h : Scanf.Matches ds vs s) : Scanf.Value.str [] ∉ vs := by
  induction h with
  | done _ => exact List.not_mem_nil
  | space _ _ _ ih => exact ih
  | byte _ ih => exact ih
  | str _ hne _ _ _ ih =>
    intro hmem
    rcases List.mem_cons.mp hmem with heq | hmem
    · exact hne (Scanf.Value.str.inj heq).symm
    · exact ih hmem
  | int _ _ _ _ ih | uint _ _ _ _ ih =>
    intro hmem
    rcases List.mem_cons.mp hmem with heq | hmem
    · cases heq
    · exact ih hmem

theorem not_unambiguous_root (hurl : q.url = [47]) : ¬ q.Unambiguous := by
  rintro ⟨⟨_, _, _, _, _, _, -, -, -, hline⟩, -, -⟩
  rw [hurl] at hline
  exact str_ne_nil hline List.mem_cons_self

end

/-! ### A request and one that is misread -/

/-- `POST /x` with the content `hi`. -/
def postX : HttpRequest where
  version := .HTTP11
  method := .POST
  url := ascii "/x"
  parts := Parts.empty.filled (ascii "hi") (by decide)
  url_text := by decide

/-- `GET /POST` with the same content. -/
def getPost : HttpRequest :=
  { postX with
    method := .GET
    url := ascii "/POST"
    url_text := by decide }

theorem fields_filled {content : Bytes} {hc : content.length + 10 < 2 ^ 32}
    {f : HttpHeaderField} {v : Bytes}
    (h : (@Parts.empty HttpHeaderField .Content_Length |>.filled content hc).field_vals f = some v) :
    ∀ c ∈ v, c ≠ 13 ∧ c ≠ 10 := by
  rw [Parts.filled_field] at h
  split at h
  · obtain rfl := Option.some.inj h
    intro c hmem
    have hdigit := isdigit_decimalText _ c hmem
    constructor <;> rintro rfl <;> exact absurd hdigit (by decide)
  · cases h

theorem postX_plain : postX.Plain where
  slash := by decide
  url c hc := by
    have hall : (postX.url.all fun c => !Scanf.isspace c) = true := by decide
    simpa using List.all_eq_true.mp hall c hc
  fields h := @fields_filled (ascii "hi") (by decide) _ _ h
  content_ne := by decide
  content_text := by decide

theorem getPost_plain : getPost.Plain where
  slash := by decide
  url c hc := by
    have hall : (getPost.url.all fun c => !Scanf.isspace c) = true := by decide
    simpa using List.all_eq_true.mp hall c hc
  fields h := @fields_filled (ascii "hi") (by decide) _ _ h
  content_ne := by decide
  content_text := by decide

def dumpResult (r : Except Stop Dumped) : Option (Int × Int) :=
  match r with
  | .ok d => some (d.ret, d.len)
  | .error _ => none

theorem dumpResult_some {r : Except Stop Dumped} {ret len : Int}
    (h : dumpResult r = some (ret, len)) : ∃ d, r = .ok d ∧ d.ret = ret ∧ d.len = len := by
  cases r with
  | error => cases h
  | ok d =>
    obtain ⟨rfl, rfl⟩ := Prod.mk.inj (Option.some.inj h)
    exact ⟨d, rfl, rfl, rfl⟩

theorem parsesBack_iff_postX : ∃ d, postX.dumpToBuff (List.replicate 100 0) 100 = .ok d ∧
    postX.ParsesBack ⟨d.dest.take d.len.toNat, [3, 1]⟩ := by
  obtain ⟨d, hok, hret, hlen⟩ := dumpResult_some
    (by decide +kernel : dumpResult (postX.dumpToBuff (List.replicate 100 0) 100) = some (0, 41))
  refine ⟨d, hok, (parsesBack_iff postX_plain List.length_replicate (by decide) hok hret
    (by rw [hlen]; decide) [3, 1]).mpr ⟨?_, ?_, fun h => ?_⟩⟩
  · exact ⟨[], _, _, 0, .int 1, .int 1, rfl, fun _ h => absurd h List.not_mem_nil,
      by decide +kernel, Scanf.matches_iff.mpr ⟨by decide +kernel, rfl⟩⟩
  · exact ⟨18, by decide +kernel, Scanf.matches_iff.mpr ⟨by decide +kernel, rfl⟩⟩
  · exact absurd h (by decide)

/-- The server takes the url for the method. -/
theorem getPost_misread : getPost.Plain ∧ ∃ d,
    getPost.dumpToBuff (List.replicate 100 0) 100 = .ok d ∧ d.ret = 0 ∧ d.len < 100 ∧
      ¬ getPost.ParsesBack ⟨d.dest.take d.len.toNat, []⟩ := by
  obtain ⟨d, hok, hret, hlen⟩ := dumpResult_some
    (by decide +kernel : dumpResult (getPost.dumpToBuff (List.replicate 100 0) 100) = some (0, 43))
  have hroom : d.len < 100 := by rw [hlen]; decide
  refine ⟨getPost_plain, d, hok, hret, hroom, ?_⟩
  obtain ⟨hbytes, hsize⟩ := getPost_plain.dumped List.length_replicate (by decide) hok hret hroom
  obtain ⟨_, _, _, _, hheader, -⟩ := getPost_plain.read_back hsize []
  rintro ⟨header, _, _, info, _, _, hread, hinfo, -⟩
  rw [hbytes, hheader] at hread
  obtain ⟨rfl, -⟩ := Prod.mk.inj (Except.ok.inj hread)
  have herror : getInfo getPost.header = .error (.returns (-1)) := by decide +kernel
  rw [herror] at hinfo
  cases hinfo

end HttpRequest

end CommonTools.HttpClient
