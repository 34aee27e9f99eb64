import CommonTools.Lib.LastKey
import CommonTools.Index.IndexDa

/-! # The writers that normalise queries

Both writers put the words of a query together to its key and push the extend of every entry,
also of those whose key comes again. One of them goes on by the length of the extend, the other
by what it has pushed. -/
namespace CommonTools.Index.IndexDa
open CommonTools.Lib

structure Offsets where
  char_vect_extend : Bytes
  dic_map : Std.TreeMap Bytes (BitVec 32)
  start : BitVec 32
  end_ : BitVec 32

def Offsets.init : Offsets := ⟨[], ∅, 0, 0⟩

/-- One round for an entry with words. `next` is what `start` is set to behind the push. -/
def Offsets.write (next : Offsets → Bytes → BitVec 32) (b : Offsets) (query extend : Bytes) :
    Offsets :=
  let b := { b with dic_map := b.dic_map.insert query b.start }
  let b := { b with
    char_vect_extend := pushCString b.char_vect_extend extend
    end_ := b.end_ + BitVec.ofNat 32 ((cstr extend).length + 1) }
  { b with start := next b extend }

/-- One round; an entry without words is left out. -/
def Offsets.round (next : Offsets → Bytes → BitVec 32) (segment : Bytes → List Bytes)
    (b : Offsets) (v : ST) : Offsets :=
  let parts := segment v.query
  if parts.length < 1 then b else b.write next parts.flatten v.extend

/-- `start += extend.length() + 1;`. -/
def byLength (b : Offsets) (extend : Bytes) : BitVec 32 :=
  b.start + BitVec.ofNat 32 (extend.length + 1)

/-- `start = end;`. -/
def byEnd (b : Offsets) (_extend : Bytes) : BitVec 32 := b.end_

def commonLoop (segment : Bytes → List Bytes) (vect : List ST) : Offsets :=
  vect.foldl (Offsets.round byLength segment) .init

/-- The loop of `OutputIndexFile` with `isUniq`. -/
def uniqLoop (segment : Bytes → List Bytes) (vect : List ST) : Offsets :=
  vect.foldl (Offsets.round byEnd segment) .init

/-- What both do behind the loop: the return value and the file, with every `fwrite`
successful. -/
def writeIndexFile (d : Darts) (b : Offsets) : Int × Bytes :=
  let units := d.build (daKeys b.dic_map)
  let da_size := BitVec.ofNat 32 (units.length * 4)
  let file := Pod.toBytes (0 : BitVec 32) ++ Pod.toBytes da_size
  -- `save` fails without units
  if units.length = 0 then (-1, file)
  else
    let size_ := BitVec.ofNat 32 b.char_vect_extend.length
    let file := file ++ block units ++ Pod.toBytes size_ ++ b.char_vect_extend
    (0, file ++ Pod.toBytes (BitVec.ofNat 32 file.length))

def outputIndexFileCommon (d : Darts) (sort : List ST → List ST) (segment : Bytes → List Bytes)
    (vect : List ST) : Int × Bytes :=
  writeIndexFile d (commonLoop segment (sort vect))

def outputIndexFileUniq (d : Darts) (sort : List ST → List ST) (segment : Bytes → List Bytes)
    (vect : List ST) : Int × Bytes :=
  writeIndexFile d (uniqLoop segment (sort vect))

/-! ## What the writers are to keep -/

/-- The entries with words: their keys and their extends. -/
def entries (segment : Bytes → List Bytes) (vect : List ST) : List (Bytes × Bytes) :=
  (vect.filter fun v => !(segment v.query).isEmpty).map
    fun v => ((segment v.query).flatten, v.extend)

def pushed (es : List (Bytes × Bytes)) : Bytes := es.foldl (fun buf e => pushCString buf e.2) []

/-- The offset is where the extend of the last entry with this key begins. -/
def BeginsLast (es : List (Bytes × Bytes)) (buffer key : Bytes) (offset : BitVec 32) : Prop :=
  ∃ before extend rest, IsLast es before key extend ∧
    buffer = pushed before ++ cstr extend ++ 0 :: rest ∧ offset.toNat = (pushed before).length

/-- Both writers have the same offsets and the same buffer, and the offsets are right. -/
structure Agree (es : List (Bytes × Bytes)) (common uniq : Offsets) : Prop where
  dic_map : ∀ key : Bytes, common.dic_map[key]? = uniq.dic_map[key]?
  char_vect_extend : common.char_vect_extend = uniq.char_vect_extend
  begins : ∀ (key : Bytes) (offset : BitVec 32), uniq.dic_map[key]? = some offset →
    BeginsLast es uniq.char_vect_extend key offset

/-- The texts before an entry are not too long for an offset, and what stands behind their zero
bytes does not move the offset. -/
def Fits (before : List (Bytes × Bytes)) : Prop :=
  (before.map fun e => (cstr e.2).length + 1).sum < 2 ^ 32 ∧
    2 ^ 32 ∣ (before.map fun e => e.2.length - (cstr e.2).length).sum

/-! ## The loops -/

section
variable {segment : Bytes → List Bytes} {next : Offsets → Bytes → BitVec 32}
  {width : Bytes → Nat}

/-- The loop sees only the entries with words. -/
theorem foldl_round (vect : List ST) (b : Offsets) :
    vect.foldl (Offsets.round next segment) b =
      (entries segment vect).foldl (fun b e => b.write next e.1 e.2) b := by
  induction vect generalizing b with
  | nil => rfl
  | cons v vect ih =>
    rw [List.foldl_cons, ih, entries, entries, Offsets.round]
    by_cases hnone : segment v.query = [] <;> simp [hnone]

theorem pushed_concat (es : List (Bytes × Bytes)) (e : Bytes × Bytes) :
    pushed (es ++ [e]) = pushed es ++ (cstr e.2 ++ [0]) := by
  simp [pushed, pushCString]

/-- The buffer goes on behind the entries before. -/
theorem pushed_append (es : List (Bytes × Bytes)) :
    ∀ es' : List (Bytes × Bytes), ∃ rest, pushed (es ++ es') = pushed es ++ rest := by
  intro es'
  induction es' using List.reverseRecOn with
  | nil => exact ⟨[], by simp⟩
  | append_singleton es' e ih =>
    obtain ⟨rest, hrest⟩ := ih
    exact ⟨rest ++ (cstr e.2 ++ [0]), by
      rw [← List.append_assoc, pushed_concat, hrest, List.append_assoc]⟩

theorem length_pushed (es : List (Bytes × Bytes)) :
    (pushed es).length = (es.map fun e => (cstr e.2).length + 1).sum := by
  induction es using List.reverseRecOn with
  | nil => rfl
  | append_singleton es e ih => simp [pushed_concat, ih]

/-- What the loop has when `start` goes on by `width`. -/
structure Counted (width : Bytes → Nat) (es : List (Bytes × Bytes)) (b : Offsets) : Prop where
  char_vect_extend : b.char_vect_extend = pushed es
  start : b.start = BitVec.ofNat 32 (es.map fun e => width e.2).sum
  end_ : b.end_ = BitVec.ofNat 32 (pushed es).length
  dic_map : ∀ (key : Bytes) (offset : BitVec 32), b.dic_map[key]? = some offset ↔
    ∃ before extend, IsLast es before key extend ∧
      offset = BitVec.ofNat 32 (before.map fun e => width e.2).sum

theorem counted_init (width : Bytes → Nat) : Counted width [] .init where
  char_vect_extend := rfl
  start := rfl
  end_ := rfl
  dic_map key offset := by simp [Offsets.init, not_isLast_nil]

theorem Counted.write {es : List (Bytes × Bytes)} {b : Offsets} (h : Counted width es b)
    (e : Bytes × Bytes)
    (hnext : ∀ b' : Offsets, b'.start = b.start →
      b'.end_ = BitVec.ofNat 32 (pushed (es ++ [e])).length →
      next b' e.2 = BitVec.ofNat 32 ((es ++ [e]).map fun e => width e.2).sum) :
    Counted width (es ++ [e]) (b.write next e.1 e.2) := by
  have hend : b.end_ + BitVec.ofNat 32 ((cstr e.2).length + 1) =
      BitVec.ofNat 32 (pushed (es ++ [e])).length := by
    rw [h.end_, pushed_concat, ← BitVec.ofNat_add]
    simp
  refine ⟨?_, hnext _ rfl hend, hend, fun key offset => ?_⟩
  · rw [pushed_concat, ← h.char_vect_extend, ← List.append_assoc]
    rfl
  · have hmap : (b.write next e.1 e.2).dic_map = b.dic_map.insert e.1 b.start := rfl
    rw [hmap, Std.TreeMap.getElem?_insert]
    by_cases hkey : e.1 = key
    · rw [if_pos (Std.compare_eq_iff_eq.mpr hkey), Option.some_inj, h.start]
      constructor
      · intro hoff
        exact ⟨es, e.2, isLast_concat_iff.mpr (.inl ⟨by rw [← hkey], rfl⟩), hoff.symm⟩
      · intro hlast
        obtain ⟨before, extend, hlast, rfl⟩ := hlast
        rcases isLast_concat_iff.mp hlast with ⟨-, rfl⟩ | ⟨hne, -⟩
        · rfl
        · exact absurd hkey hne
    · rw [if_neg fun heq => hkey (Std.compare_eq_iff_eq.mp heq), h.dic_map]
      have hiff : ∀ before extend, IsLast (es ++ [e]) before key extend ↔
          IsLast es before key extend := by
        intro before extend
        rw [isLast_concat_iff]
        refine ⟨fun hlast => ?_, fun hlast => .inr ⟨hkey, hlast⟩⟩
        rcases hlast with ⟨rfl, -⟩ | ⟨-, hlast⟩
        · exact absurd rfl hkey
        · exact hlast
      simp only [hiff]

theorem counted_foldl (hnext : ∀ (b : Offsets) (es : List (Bytes × Bytes)) (e : Bytes × Bytes),
      b.start = BitVec.ofNat 32 (es.map fun e => width e.2).sum →
      b.end_ = BitVec.ofNat 32 (pushed (es ++ [e])).length →
      next b e.2 = BitVec.ofNat 32 ((es ++ [e]).map fun e => width e.2).sum)
    (es : List (Bytes × Bytes)) :
    Counted width es (es.foldl (fun b e => b.write next e.1 e.2) .init) := by
  induction es using List.reverseRecOn with
  | nil => exact counted_init width
  | append_singleton es e ih =>
    rw [List.foldl_append, List.foldl_cons, List.foldl_nil]
    exact ih.write e fun b' hstart hend => hnext b' es e (hstart.trans ih.start) hend

theorem commonLoop_counted (segment : Bytes → List Bytes) (vect : List ST) :
    Counted (·.length + 1) (entries segment vect) (commonLoop segment vect) := by
  rw [commonLoop, foldl_round]
  refine counted_foldl (fun b es e hstart _ => ?_) _
  rw [byLength, hstart, ← BitVec.ofNat_add]
  simp

theorem uniqLoop_counted (segment : Bytes → List Bytes) (vect : List ST) :
    Counted (fun extend => (cstr extend).length + 1) (entries segment vect)
      (uniqLoop segment vect) := by
  rw [uniqLoop, foldl_round]
  refine counted_foldl (fun b es e _ hend => ?_) _
  rw [byEnd, hend, length_pushed]

end

/-! ## When they agree -/

section
variable {es before : List (Bytes × Bytes)} {b b' : Offsets}

theorem sum_length (es : List (Bytes × Bytes)) :
    (es.map fun e => e.2.length + 1).sum = (es.map fun e => (cstr e.2).length + 1).sum +
      (es.map fun e => e.2.length - (cstr e.2).length).sum := by
  induction es with
  | nil => rfl
  | cons e es ih =>
    have hle : (cstr e.2).length ≤ e.2.length := (List.takeWhile_prefix _).length_le
    simp only [List.map_cons, List.sum_cons]
    omega

/-- Both ways to count give the offset of what has been pushed. -/
theorem fits_iff : Fits before ↔
    BitVec.ofNat 32 (before.map fun e => e.2.length + 1).sum =
        BitVec.ofNat 32 (before.map fun e => (cstr e.2).length + 1).sum ∧
      (BitVec.ofNat 32 (before.map fun e => (cstr e.2).length + 1).sum).toNat =
        (pushed before).length := by
  rw [Fits, sum_length, ← length_pushed, BitVec.toNat_ofNat, ← BitVec.toNat_inj,
    BitVec.toNat_ofNat, BitVec.toNat_ofNat]
  omega

/-- The text of an entry stands in the buffer behind those of the entries before. -/
theorem pushed_of_isLast {key extend : Bytes} (h : IsLast es before key extend) :
    ∃ rest, pushed es = pushed before ++ cstr extend ++ 0 :: rest := by
  obtain ⟨after, rfl, -⟩ := h
  obtain ⟨rest, hrest⟩ := pushed_append (before ++ [(key, extend)]) after
  refine ⟨rest, ?_⟩
  rw [List.append_cons, hrest, pushed_concat]
  simp

theorem agree_iff (h : Counted (·.length + 1) es b)
    (h' : Counted (fun extend => (cstr extend).length + 1) es b') :
    Agree es b b' ↔ ∀ before key extend, IsLast es before key extend → Fits before := by
  constructor
  · intro hagree before key extend hlast
    have hget := (h.dic_map key _).mpr ⟨before, extend, hlast, rfl⟩
    have hget' := (h'.dic_map key _).mpr ⟨before, extend, hlast, rfl⟩
    have hsame := hagree.dic_map key
    rw [hget, hget', Option.some_inj] at hsame
    obtain ⟨before', extend', -, hlast', -, hoffset⟩ := hagree.begins key _ hget'
    obtain ⟨rfl, -⟩ := hlast'.unique hlast
    exact fits_iff.mpr ⟨hsame, hoffset⟩
  · intro hfits
    have hmap : ∀ key : Bytes, b.dic_map[key]? = b'.dic_map[key]? := by
      intro key
      ext offset
      rw [h.dic_map, h'.dic_map]
      constructor
      · intro hoff
        obtain ⟨before, extend, hlast, rfl⟩ := hoff
        exact ⟨before, extend, hlast, (fits_iff.mp (hfits before key extend hlast)).1⟩
      · intro hoff
        obtain ⟨before, extend, hlast, rfl⟩ := hoff
        exact ⟨before, extend, hlast, (fits_iff.mp (hfits before key extend hlast)).1.symm⟩
    refine ⟨hmap, h.char_vect_extend.trans h'.char_vect_extend.symm, fun key offset hget => ?_⟩
    obtain ⟨before, extend, hlast, rfl⟩ := (h'.dic_map key offset).mp hget
    obtain ⟨rest, hrest⟩ := pushed_of_isLast hlast
    exact ⟨before, extend, rest, hlast, h'.char_vect_extend.trans hrest,
      (fits_iff.mp (hfits before key extend hlast)).2⟩

/-- Writers that agree write the same file. -/
theorem Agree.file (h : Agree es b b') (d : Darts) : writeIndexFile d b = writeIndexFile d b' := by
  have hkeys : daKeys b.dic_map = daKeys b'.dic_map := by
    rw [daKeys, daKeys, (Std.TreeMap.Equiv.of_forall_constGet?_eq h.dic_map).toList_eq]
  rw [writeIndexFile, writeIndexFile, hkeys, h.char_vect_extend]

end

/-- **The writers agree exactly when what stands behind zero bytes moves no offset that is
kept.** -/
theorem outputIndexFileCommon_agrees_iff (sort : List ST → List ST)
    (segment : Bytes → List Bytes) (vect : List ST) :
    (Agree (entries segment (sort vect)) (commonLoop segment (sort vect))
          (uniqLoop segment (sort vect)) ∧
        ∀ d, outputIndexFileCommon d sort segment vect = outputIndexFileUniq d sort segment vect) ↔
      ∀ before key extend, IsLast (entries segment (sort vect)) before key extend →
        Fits before := by
  rw [← agree_iff (commonLoop_counted segment (sort vect)) (uniqLoop_counted segment (sort vect))]
  exact ⟨And.left, fun h => ⟨h, h.file⟩⟩

/-- Two entries in the order of the sort: a zero byte in the first extend moves the offset of the
second key. -/
theorem outputIndexFileCommon_zero_byte :
    let vect : List ST := [⟨[97], [120, 0, 121]⟩, ⟨[98], []⟩]
    ¬ Agree (entries (fun query => [query]) vect) (commonLoop (fun query => [query]) vect)
      (uniqLoop (fun query => [query]) vect) := by
  intro vect h
  have hsame := (agree_iff (commonLoop_counted _ vect) (uniqLoop_counted _ vect)).mp h
    [([97], [120, 0, 121])] [98] [] ⟨[], rfl, by simp⟩
  simp [Fits, cstr] at hsame

end CommonTools.Index.IndexDa
