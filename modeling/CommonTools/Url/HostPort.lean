import CommonTools.Http.Message
import CommonTools.Lib.Text

/-! # The host and the port of a URL

`getHostofUrl` looks for both schemes in the whole URL. When it finds `https://` anywhere, the
host begins 8 bytes behind the place where `http://` stands, or where it would stand if the -1 of
a search without success were a place. -/
namespace CommonTools.Url
open CommonTools.Lib CommonTools.Http

/-! ## `socket_utils.cpp` -/

/-- `http://`. -/
def http : Bytes := [104, 116, 116, 112, 58, 47, 47]

/-- `https://`. -/
def https : Bytes := [104, 116, 116, 112, 115, 58, 47, 47]

/-- The `int` that `_url.find(c, retBeg)` is stored in. -/
def findByte (c : UInt8) (_url : Bytes) (retBeg : Int) : Int :=
  if retBeg < 0 ∨ _url.length < retBeg then -1
  else
    match (_url.drop retBeg.toNat).idxOf? c with
    | none => -1
    | some i => toInt32 (retBeg + i)

/-- Where `getHostofUrl` lets the host begin. -/
def hostBegin (_url : Bytes) : Int :=
  let pos1 := findInt http _url
  let pos1_1 := findInt https _url
  if pos1 = -1 ∧ pos1_1 = -1 then 0
  else if pos1_1 = -1 then pos1 + 7
  else pos1 + 8

/-- Where it ends: at the first slash or the first colon, or at -1. -/
def hostEnd (_url : Bytes) (retBeg : Int) : Int :=
  let pos2 := findByte 47 _url retBeg
  let pos3 := findByte 58 _url retBeg
  if pos3 ≠ -1 ∧ (pos2 = -1 ∨ pos3 < pos2) then pos3 else pos2

def getHostofUrl (_url : Bytes) : Except Stop (Int × Int) :=
  if _url = [] then .error (.returns (-1))
  else if INT_MAX < hostBegin _url then .error .undefined
  else .ok (hostBegin _url, hostEnd _url (hostBegin _url))

/-- `get_host_port` when it returns 0. Outside of the string `substr` throws. -/
def getHostPort (strAddr : Bytes) : Except Stop (Bytes × Int) :=
  match getHostofUrl strAddr with
  | .error .undefined => .error .undefined
  | .error (.returns _) => .error (.returns (-2))
  | .ok (_beg, _end) =>
    if _beg < 0 ∨ strAddr.length < _beg then .error .undefined
    else
      let _host :=
        if _end ≤ _beg then strAddr.drop _beg.toNat
        else (strAddr.drop _beg.toNat).take (_end - _beg).toNat
      if _end < -1 ∨ strAddr.length ≤ _end then .error .undefined
      else
        let _port :=
          if _end ≠ -1 ∧ strAddr[_end.toNat]? = some 58 then
            atoi (cstr (strAddr.drop (_end.toNat + 1)))
          else -1
        if _port ≤ 0 then
          if (find http strAddr).isSome then .ok (_host, 80)
          else if (find https strAddr).isSome then .ok (_host, 443)
          else .error (.returns (-1))
        else .ok (_host, _port)

/-! ## What is read -/

/-- The port for a URL that gives none. -/
def defaultPort (url : Bytes) : Int := if (find http url).isSome then 80 else 443

/-- The port behind a host: the number behind a colon, if it is positive. -/
def portBehind (url : Bytes) : Bytes → Int
  | 58 :: t => if 0 < atoi (cstr t) then atoi (cstr t) else defaultPort url
  | _ => defaultPort url

/-- From `beg` on the host stands in the URL, up to its end or the place that is taken for the
end of the host, and this port behind it. -/
def ReadsFrom (url : Bytes) (beg : Nat) (host : Bytes) (port : Int) : Prop :=
  ∃ tail, url.drop beg = host ++ tail ∧ (tail = [] ∨ hostEnd url beg = beg + host.length) ∧
    portBehind url tail = port

/-- An `int` can say that the host ends at `place`, and the places where the first slash and
the first colon stand, as `int`s, are not before it. -/
def EndsAt (url : Bytes) (beg : Nat) (place : Int) : Prop :=
  place ≤ INT_MAX ∧ (findByte 47 url beg = -1 ∨ place ≤ findByte 47 url beg) ∧
    (findByte 58 url beg = -1 ∨ place ≤ findByte 58 url beg)

def Plain (host : Bytes) : Prop := 47 ∉ host ∧ 58 ∉ host

instance (host : Bytes) : Decidable (Plain host) := inferInstanceAs (Decidable (_ ∧ _))

section
variable {url host tail rest : Bytes} {beg : Nat} {c d : UInt8} {port : Int}

theorem findByte_eq (hbeg : beg ≤ url.length) (h : url.drop beg = host ++ c :: rest)
    (hc : c ∉ host) : findByte c url beg = toInt32 (beg + host.length) := by
  have hidx : (host ++ c :: rest).idxOf? c = some host.length := by
    rw [List.idxOf?_eq_some_iff]
    refine ⟨by simp, by simp, fun j hj => ?_⟩
    rw [List.getElem_append_left hj]
    exact fun hcj => hc (hcj ▸ List.getElem_mem hj)
  unfold findByte
  rw [if_neg (by omega), Int.toNat_natCast, h, hidx]

theorem findByte_none (h : url.drop beg = host) (hc : c ∉ host) : findByte c url beg = -1 := by
  unfold findByte
  split
  · rfl
  · rw [Int.toNat_natCast, h, List.idxOf?_eq_none_iff.mpr hc]

/-- The place of a byte, or of one that is 2 ^ 32 bytes or more behind it. -/
theorem findByte_lt (c : UInt8) (url : Bytes) (beg : Nat) : findByte c url beg < url.length := by
  unfold findByte
  split
  · omega
  · rename_i hbeg
    split
    · omega
    · rename_i i hidx
      obtain ⟨hi, -⟩ := List.idxOf?_eq_some_iff.mp hidx
      rw [List.length_drop] at hi
      have hcut : ∀ x : Int, 0 ≤ x → toInt32 x ≤ x := fun x hx => by
        rw [toInt32, Int.bmod_eq_emod]
        split <;> omega
      have hle := hcut (beg + i) (by omega)
      omega

theorem findByte_le (c : UInt8) (url : Bytes) (beg : Int) : findByte c url beg ≤ INT_MAX := by
  unfold findByte
  split
  · decide
  · split
    · decide
    · exact toInt32_le _

theorem hostEnd_lt (url : Bytes) (beg : Nat) : hostEnd url beg < url.length := by
  have hslash := findByte_lt 47 url beg
  have hcolon := findByte_lt 58 url beg
  unfold hostEnd
  dsimp only
  split
  · exact hcolon
  · exact hslash

theorem hostEnd_none (h : url.drop beg = host) (hplain : Plain host) : hostEnd url beg = -1 := by
  unfold hostEnd
  rw [findByte_none h hplain.1, findByte_none h hplain.2]
  rfl

/-- The end of the host is found when an `int` can say where it is, and where the first slash
and the first colon are. -/
theorem hostEnd_eq_iff (hbeg : beg ≤ url.length) (h : url.drop beg = host ++ d :: rest)
    (hplain : Plain host) (hd : d = 47 ∨ d = 58) :
    hostEnd url beg = beg + host.length ↔ EndsAt url beg (beg + host.length) := by
  have hle := toInt32_le (beg + host.length)
  have hint : (beg : Int) + host.length ≤ INT_MAX →
      toInt32 (beg + host.length) = beg + host.length := by
    intro hmax
    have hn := @toInt32_natCast (beg + host.length) (by rw [Int.natCast_add]; exact hmax)
    rwa [Int.natCast_add] at hn
  unfold hostEnd EndsAt
  dsimp only
  rcases hd with rfl | rfl
  · rw [findByte_eq hbeg h hplain.1]
    have hcolon := findByte_le 58 url beg
    generalize findByte 58 url beg = pos3 at *
    generalize toInt32 (beg + host.length) = pos2 at *
    split <;> omega
  · rw [findByte_eq hbeg h hplain.2]
    have hslash := findByte_le 47 url beg
    generalize findByte 47 url beg = pos2 at *
    generalize toInt32 (beg + host.length) = pos3 at *
    split <;> omega

theorem port_iff (hscheme : (find http url).isSome ∨ (find https url).isSome) {_host : Bytes}
    {_port : Int} :
    ((if _port ≤ 0 then
        if (find http url).isSome then .ok (_host, 80)
        else if (find https url).isSome then .ok (_host, 443)
        else .error (.returns (-1))
      else .ok (_host, _port)) : Except Stop (Bytes × Int)) = .ok (host, port) ↔
      _host = host ∧ (if 0 < _port then _port else defaultPort url) = port := by
  unfold defaultPort
  by_cases hpos : 0 < _port
  · rw [if_neg (Int.not_le.mpr hpos), if_pos hpos, Except.ok.injEq, Prod.mk.injEq]
  rw [if_pos (Int.not_lt.mp hpos), if_neg hpos]
  by_cases hhttp : (find http url).isSome
  · rw [if_pos hhttp, if_pos hhttp, Except.ok.injEq, Prod.mk.injEq]
  · rw [if_neg hhttp, if_neg hhttp, if_pos (hscheme.resolve_left hhttp), Except.ok.injEq,
      Prod.mk.injEq]

/-- The number behind the end of the host. -/
theorem portBehind_eq {_end : Int} (htail : url.drop _end.toNat = tail) (hend : 0 ≤ _end) :
    portBehind url tail =
      let _port :=
        if _end ≠ -1 ∧ url[_end.toNat]? = some 58 then atoi (cstr (url.drop (_end.toNat + 1)))
        else -1
      if 0 < _port then _port else defaultPort url := by
  have hhead : url[_end.toNat]? = tail.head? := by
    rw [← htail, List.head?_drop]
  have hnext : url.drop (_end.toNat + 1) = tail.tail := by
    rw [← htail, List.tail_drop]
  have hne : _end ≠ -1 := by omega
  simp only [hhead, hnext, hne, ne_eq, not_false_eq_true, true_and]
  unfold portBehind
  split
  · rfl
  · rename_i hcolon
    have hhead : tail.head? ≠ some 58 := by
      intro hhead
      obtain ⟨t, ht⟩ := List.head?_eq_some_iff.mp hhead
      exact hcolon t ht
    simp only [hhead, if_false]
    rfl

/-- What `get_host_port` returns is what is read from the place where it lets the host begin. -/
theorem getHostPort_iff (hscheme : (find http url).isSome ∨ (find https url).isSome)
    (hhost : host ≠ []) (hplain : Plain host) :
    getHostPort url = .ok (host, port) ↔
      hostBegin url ≤ INT_MAX ∧ 0 ≤ hostBegin url ∧ hostBegin url ≤ url.length ∧
        ReadsFrom url (hostBegin url).toNat host port := by
  have hne : url ≠ [] := by
    rintro rfl
    revert hscheme
    decide
  unfold getHostPort getHostofUrl
  rw [if_neg hne]
  by_cases hmax : INT_MAX < hostBegin url
  · rw [if_pos hmax]
    exact iff_of_false nofun fun h => absurd hmax (Int.not_lt.mpr h.1)
  rw [if_neg hmax]
  dsimp only
  by_cases hout : hostBegin url < 0 ∨ url.length < hostBegin url
  · rw [if_pos hout]
    exact iff_of_false nofun (by omega)
  rw [if_neg hout]
  obtain ⟨beg, hbeg⟩ : ∃ beg : Nat, hostBegin url = beg := Int.eq_ofNat_of_zero_le (by omega)
  rw [hbeg, Int.toNat_natCast]
  have hlt := hostEnd_lt url beg
  have hpos : 0 < host.length := List.length_pos_iff.mpr hhost
  have hrange : ((beg : Int) ≤ INT_MAX ∧ (0 : Int) ≤ beg ∧ (beg : Int) ≤ url.length ∧
      ReadsFrom url beg host port) ↔ ReadsFrom url beg host port := by
    constructor
    · exact fun h => h.2.2.2
    · exact fun h => ⟨by omega, by omega, by omega, h⟩
  rw [hrange]
  unfold ReadsFrom
  have hwhole : url.drop beg = host → hostEnd url beg = -1 := fun h => hostEnd_none h hplain
  generalize hostEnd url beg = _end at *
  by_cases hindex : _end < -1 ∨ url.length ≤ _end
  · rw [if_pos hindex]
    refine iff_of_false nofun ?_
    rintro ⟨tail, htail, rfl | hend, -⟩
    · have := hwhole (by rw [htail, List.append_nil])
      omega
    · omega
  rw [if_neg hindex, port_iff hscheme]
  by_cases hle : _end ≤ beg
  · rw [if_pos hle]
    constructor
    · rintro ⟨hdrop, hport⟩
      refine ⟨[], by rw [hdrop, List.append_nil], .inl rfl, ?_⟩
      rw [← hport, hwhole hdrop]
      rfl
    · rintro ⟨tail, htail, hend, hport⟩
      have hnil : tail = [] := hend.resolve_right (by omega)
      rw [hnil, List.append_nil] at htail
      refine ⟨htail, ?_⟩
      rw [← hport, hwhole htail, hnil]
      rfl
  · rw [if_neg hle]
    have hbehind : ∀ tail, url.drop beg = host ++ tail → _end = beg + host.length →
        url.drop _end.toNat = tail := by
      intro tail htail hend
      have hnat : _end.toNat = beg + host.length := by omega
      rw [hnat, ← List.drop_drop, htail, List.drop_left]
    constructor
    · rintro ⟨htake, hport⟩
      have hlen := congrArg List.length htake
      rw [List.length_take, List.length_drop] at hlen
      have hend : _end = beg + host.length := by omega
      have htail : url.drop beg = host ++ (url.drop beg).drop (_end - beg).toNat := by
        conv_rhs => rw [← htake]
        exact (List.take_append_drop ..).symm
      refine ⟨_, htail, .inr hend, ?_⟩
      rw [portBehind_eq (hbehind _ htail hend) (by omega), ← hport]
    · rintro ⟨tail, htail, hend, hport⟩
      have hend : _end = beg + host.length := by
        rcases hend with rfl | hend
        · have := hwhole (by rw [htail, List.append_nil])
          omega
        · exact hend
      have hnat : (_end - beg).toNat = host.length := by omega
      refine ⟨by rw [hnat, htail, List.take_left], ?_⟩
      rw [← hport, portBehind_eq (hbehind tail htail hend) (by omega)]

end

/-! ## The grammar -/

inductive Scheme where
  | http
  | https
deriving DecidableEq

def Scheme.text : Scheme → Bytes
  | .http => Url.http
  | .https => Url.https

def Scheme.port : Scheme → Int
  | .http => 80
  | .https => 443

/-- `scheme://host[:port][/rest]`. -/
structure HttpUrl where
  scheme : Scheme
  host : Bytes
  port : Option Bytes
  rest : Option Bytes
  host_ne_nil : host ≠ []
  host_plain : Plain host
  port_digits : ∀ digits ∈ port, digits.all Scanf.isdigit = true ∧ 0 < Scanf.decimal digits

namespace HttpUrl

def portText (u : HttpUrl) : Bytes := u.port.elim [] (58 :: ·)

def restText (u : HttpUrl) : Bytes := u.rest.elim [] (47 :: ·)

def text (u : HttpUrl) : Bytes := u.scheme.text ++ (u.host ++ (u.portText ++ u.restText))

/-- The port that is given, or that of the scheme. -/
def portNumber (u : HttpUrl) : Int :=
  match u.port with
  | none => u.scheme.port
  | some digits => Scanf.decimal digits

/-- With `http` no `https://` is found, an `int` can say where the host ends, and the port is an
`int`. With `https` an `http://` is found, and the host happens to stand again one byte behind
it, with the port. -/
def ReadRight (u : HttpUrl) : Prop :=
  match u.scheme with
  | .http =>
    findInt https u.text = -1 ∧
      (u.portText ++ u.restText = [] ∨ EndsAt u.text 7 (7 + u.host.length)) ∧
      u.portNumber ≤ INT_MAX
  | .https =>
    findInt http u.text ≠ -1 ∧
      ∃ beg : Nat, findInt http u.text + 8 = beg ∧ (beg : Int) ≤ INT_MAX ∧ beg ≤ u.text.length ∧
        ReadsFrom u.text beg u.host u.portNumber

/-- Behind the host stands nothing, or a delimiter. -/
theorem tail_cases (u : HttpUrl) : u.portText ++ u.restText = [] ∨
    ∃ d t, u.portText ++ u.restText = d :: t ∧ (d = 47 ∨ d = 58) := by
  unfold portText restText
  cases u.port with
  | none =>
    cases u.rest with
    | none => exact .inl rfl
    | some rest => exact .inr ⟨47, rest, rfl, .inl rfl⟩
  | some digits => exact .inr ⟨58, _, rfl, .inr rfl⟩

/-- The host does not stand again one byte further on. -/
theorem not_shifted (u : HttpUrl) (tail : Bytes) :
    u.host.drop 1 ++ (u.portText ++ u.restText) ≠ u.host ++ tail := by
  intro h
  have hpos : 0 < u.host.length := List.length_pos_iff.mpr u.host_ne_nil
  have htake := congrArg (List.take u.host.length) h
  rw [List.take_left, List.take_append, List.length_drop, List.take_of_length_le (by simp),
    Nat.sub_sub_self hpos] at htake
  rcases u.tail_cases with hnil | ⟨d, t, htail, hd⟩
  · have hlen := congrArg List.length htake
    rw [hnil, List.take_nil, List.append_nil, List.length_drop] at hlen
    omega
  · rw [htail, List.take_succ_cons, List.take_zero] at htake
    have hmem : d ∈ u.host := by
      rw [← htake]
      simp
    rcases hd with rfl | rfl
    · exact u.host_plain.1 hmem
    · exact u.host_plain.2 hmem

/-- The port behind the host is read when it is an `int`. -/
theorem portBehind_iff (u : HttpUrl) (hscheme : u.scheme = .http)
    (hdefault : defaultPort u.text = 80) :
    portBehind u.text (u.portText ++ u.restText) = u.portNumber ↔ u.portNumber ≤ INT_MAX := by
  unfold portNumber portText restText
  cases hport : u.port with
  | none =>
    rw [hscheme]
    refine iff_of_true ?_ (by decide)
    cases u.rest with
    | none => exact hdefault
    | some rest => exact hdefault
  | some digits =>
    obtain ⟨hdigits, hpos⟩ := u.port_digits digits hport
    have hdigits := List.all_eq_true.mp hdigits
    have hne : digits ≠ [] := by
      rintro rfl
      exact absurd hpos (by decide)
    have hnul : NulFree digits := by
      rintro d hd rfl
      exact absurd (hdigits 0 hd) (by decide)
    have hread : atoi (cstr (digits ++ u.rest.elim [] (47 :: ·))) =
        Scanf.toInt (Scanf.decimal digits) := by
      rw [cstr_append_of_nulFree hnul]
      refine atoi_digits hne hdigits fun d hd => ?_
      cases hrest : u.rest with
      | none =>
        rw [hrest] at hd
        cases hd
      | some rest =>
        rw [hrest] at hd
        cases hd
        rfl
    show (if 0 < atoi (cstr (digits ++ u.rest.elim [] (47 :: ·))) then
        atoi (cstr (digits ++ u.rest.elim [] (47 :: ·))) else defaultPort u.text) =
      (Scanf.decimal digits : Int) ↔ (Scanf.decimal digits : Int) ≤ INT_MAX
    rw [hread, hdefault]
    have hbounds := Scanf.toInt_bounds (Scanf.decimal digits)
    unfold INT_MAX
    constructor
    · intro h
      split at h <;> omega
    · intro h
      have hint := @Scanf.toInt_natCast (Scanf.decimal digits) (by omega)
      rw [hint]
      exact if_pos (by omega)

theorem find_scheme (u : HttpUrl) : find u.scheme.text u.text = some 0 :=
  find_eq_some_iff.mpr ⟨⟨Nat.zero_le _, List.prefix_append ..⟩,
    fun j hj => absurd hj (Nat.not_lt_zero j)⟩

/-- From behind the scheme on, the host and the port are read. -/
theorem reads_http (u : HttpUrl) (hscheme : u.scheme = .http) :
    ReadsFrom u.text 7 u.host u.portNumber ↔
      (u.portText ++ u.restText = [] ∨ EndsAt u.text 7 (7 + u.host.length)) ∧
        u.portNumber ≤ INT_MAX := by
  have hdrop : u.text.drop 7 = u.host ++ (u.portText ++ u.restText) := by
    unfold text
    rw [hscheme]
    rfl
  have hlen : 7 ≤ u.text.length := by
    unfold text
    rw [hscheme, List.length_append]
    exact Nat.le_add_right 7 _
  have hdefault : defaultPort u.text = 80 := by
    have hfind : find http u.text = some 0 := by
      have hfind := u.find_scheme
      rwa [hscheme] at hfind
    rw [defaultPort, hfind]
    rfl
  rw [← u.portBehind_iff hscheme hdefault]
  have hend : u.portText ++ u.restText ≠ [] →
      (hostEnd u.text (7 : Nat) = (7 : Nat) + u.host.length ↔
        EndsAt u.text 7 (7 + u.host.length)) := by
    intro hne
    obtain ⟨d, t, htail, hd⟩ := u.tail_cases.resolve_left hne
    rw [htail] at hdrop
    exact hostEnd_eq_iff hlen hdrop u.host_plain hd
  constructor
  · rintro ⟨tail, htail, hplace, hport⟩
    rw [hdrop, List.append_cancel_left_eq] at htail
    rw [← htail] at hplace hport
    refine ⟨?_, hport⟩
    by_cases hnil : u.portText ++ u.restText = []
    · exact .inl hnil
    · exact .inr ((hend hnil).mp (hplace.resolve_left hnil))
  · rintro ⟨hplace, hport⟩
    refine ⟨_, hdrop, ?_, hport⟩
    by_cases hnil : u.portText ++ u.restText = []
    · exact .inl hnil
    · exact .inr ((hend hnil).mpr (hplace.resolve_left hnil))

end HttpUrl

/-- **When `get_host_port` follows the grammar.** -/
theorem getHostPort_grammar_iff (u : HttpUrl) :
    getHostPort u.text = .ok (u.host, u.portNumber) ↔ u.ReadRight := by
  unfold HttpUrl.ReadRight
  cases hscheme : u.scheme with
  | http =>
    have hfind : find http u.text = some 0 := by
      have hfind := u.find_scheme
      rwa [hscheme] at hfind
    rw [getHostPort_iff (.inl (by rw [hfind]; rfl)) u.host_ne_nil u.host_plain]
    have hpos1 : findInt http u.text = 0 := by
      rw [findInt, hfind]
      rfl
    have hlen : 8 ≤ u.text.length := by
      have hpos : 0 < u.host.length := List.length_pos_iff.mpr u.host_ne_nil
      unfold HttpUrl.text
      rw [hscheme, List.length_append, List.length_append]
      show 8 ≤ 7 + _
      omega
    have hbegin : hostBegin u.text = if findInt https u.text = -1 then 7 else 8 := by
      unfold hostBegin
      dsimp only
      rw [hpos1, if_neg (by omega)]
      rfl
    rw [hbegin]
    by_cases hsecure : findInt https u.text = -1
    · rw [if_pos hsecure]
      have hreads := u.reads_http hscheme
      constructor
      · exact fun h => ⟨hsecure, hreads.mp h.2.2.2⟩
      · exact fun h => ⟨by decide, by decide, by omega, hreads.mpr h.2⟩
    · rw [if_neg hsecure]
      refine iff_of_false ?_ fun h => hsecure h.1
      rintro ⟨-, -, -, tail, htail, -⟩
      refine u.not_shifted tail ?_
      rw [← htail]
      have hdrop : u.text.drop 8 = (u.host ++ (u.portText ++ u.restText)).drop 1 := by
        unfold HttpUrl.text
        rw [hscheme]
        rfl
      show _ = u.text.drop 8
      rw [hdrop, List.drop_append_of_le_length (List.length_pos_iff.mpr u.host_ne_nil)]
  | https =>
    have hfind : find https u.text = some 0 := by
      have hfind := u.find_scheme
      rwa [hscheme] at hfind
    rw [getHostPort_iff (.inr (by rw [hfind]; rfl)) u.host_ne_nil u.host_plain]
    have hpos1_1 : findInt https u.text = 0 := by
      rw [findInt, hfind]
      rfl
    have hbegin : hostBegin u.text = findInt http u.text + 8 := by
      unfold hostBegin
      dsimp only
      rw [hpos1_1, if_neg (by omega), if_neg (by omega)]
    rw [hbegin]
    dsimp only
    constructor
    · rintro ⟨hmax, hnonneg, hlen, hreads⟩
      refine ⟨?_, (findInt http u.text + 8).toNat, by omega, by omega, by omega, hreads⟩
      -- without an `http://` the host would begin with the second slash of the scheme
      intro hnone
      rw [hnone] at hreads
      obtain ⟨tail, htail, -⟩ := hreads
      have hdrop : u.text.drop 7 = 47 :: (u.host ++ (u.portText ++ u.restText)) := by
        unfold HttpUrl.text
        rw [hscheme]
        rfl
      have hhead := congrArg List.head? (hdrop.symm.trans htail)
      rw [List.head?_append_of_ne_nil _ u.host_ne_nil] at hhead
      exact u.host_plain.1 (List.mem_of_mem_head? hhead.symm)
    · rintro ⟨-, beg, hbeg, hmax, hlen, hreads⟩
      rw [hbeg]
      exact ⟨hmax, by omega, by omega, hreads⟩

example : getHostPort (ascii "http://a.b:8080/c:d") = .ok (ascii "a.b", 8080) := by
  decide +kernel

/-- `https://a/b`. -/
def secureUrl : HttpUrl where
  scheme := .https
  host := [97]
  port := none
  rest := some [98]
  host_ne_nil := by decide
  host_plain := by decide
  port_digits := nofun

/-- The host of `https://a/b` is read as `/a/b`. -/
theorem getHostPort_secure :
    getHostPort secureUrl.text = .ok (47 :: secureUrl.host ++ [47, 98], 443) ∧
      getHostPort secureUrl.text ≠ .ok (secureUrl.host, secureUrl.portNumber) := by
  decide +kernel

end CommonTools.Url
