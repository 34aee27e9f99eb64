import Mathlib.Data.Rat.Defs
import CommonTools.Lib.Layout
import CommonTools.Lib.Scanf

/-! # WAV files

`WavWriter` writes a header of 44 bytes and the samples behind it; `readWav` looks for both
at fixed offsets. Two of the fields that it reads are `unsigned long`, and the index of its
loop stands still. -/
namespace CommonTools.Speech
open CommonTools.Lib

/-! ## `wav.cpp` -/

structure WavWriter where
  wav : Bytes
  dataLength : Int
  sampleRate : Int
  bitsPerSample : Int
  channels : Int

def writeInt32 (value : Int) : Bytes := leBytes 4 (value % 2 ^ 32).toNat

def writeInt16 (value : Int) : Bytes := leBytes 2 (value % 2 ^ 16).toNat

/-- `writeHeader`: `RIFF`, `WAVE`, `fmt ` and `data` with what belongs to them. -/
def wavHeader (sampleRate bitsPerSample channels length : Int) : Bytes :=
  let bytesPerFrame := bitsPerSample.tdiv 8 * channels
  let bytesPerSec := bytesPerFrame * sampleRate
  [82, 73, 70, 70] ++ writeInt32 (4 + 8 + 16 + 8 + length) ++ [87, 65, 86, 69] ++
    [102, 109, 116, 32] ++ writeInt32 16 ++ writeInt16 1 ++ writeInt16 channels ++
    writeInt32 sampleRate ++ writeInt32 bytesPerSec ++ writeInt16 bytesPerFrame ++
    writeInt16 bitsPerSample ++ [100, 97, 116, 97] ++ writeInt32 length

/-- The constructor, with a file that can be opened. -/
def WavWriter.open (sampleRate bitsPerSample channels : Int) : WavWriter :=
  ⟨wavHeader sampleRate bitsPerSample channels 0, 0, sampleRate, bitsPerSample, channels⟩

def WavWriter.writeData (w : WavWriter) (data : Bytes) : WavWriter :=
  { w with wav := w.wav ++ data, dataLength := w.dataLength + data.length }

/-- The destructor writes the header again, over the first one. -/
def WavWriter.close (w : WavWriter) : Bytes :=
  let header := wavHeader w.sampleRate w.bitsPerSample w.channels w.dataLength
  header ++ w.wav.drop header.length

def sampleBytes (samples : List (BitVec 16)) : Bytes := samples.flatMap fun s => leBytes 2 s.toNat

/-- The file after `writeData` was called for one part of the samples after another. -/
def wavFile (sampleRate channels : Int) (parts : List (List (BitVec 16))) : Bytes :=
  (parts.foldl (fun w part => w.writeData (sampleBytes part))
    (WavWriter.open sampleRate 16 channels)).close

/-! ## `readWav.cpp` -/

/-- The two sizes of `unsigned long`. -/
inductive DataModel where
  | ilp32
  | lp64
deriving DecidableEq

def DataModel.sizeofLong : DataModel → Nat
  | ilp32 => 4
  | lp64 => 8

/-- `seekg` and `read` into an object that holds `old`. After a short read the stream fails, and
then nothing is read any more. -/
def readAt (file : Bytes) (good : Bool) (pos : Nat) (old : Bytes) : Bytes × Bool :=
  if good then
    let r := fread old 1 old.length (file.drop pos)
    (r.mem, r.count == old.length)
  else (old, false)

/-- `char2string`: formatted input skips a blank. -/
def char2string (input : UInt8) : Bytes := if Scanf.isspace input then [] else [input]

/-- The value of a pair of bytes. -/
def floatData (data_low data_high : UInt8) : ℚ :=
  let data_true : Int := data_high.toNat * 256 + data_low.toNat
  let data_complement := if data_high.toNat / 128 = 1 then data_true - 65536 else data_true
  data_complement / 32768

/-- `i = i++` leaves `i` as it is. -/
def nextIndex (i : Nat) : Nat := i

/-- The loop, with fuel for its rounds; a read behind the allocated bytes has no meaning. -/
def wavLoop (wavData : Bytes) (dataSize : Nat) :
    Nat → Nat → List Bytes → List ℚ → Option (List Bytes × List ℚ)
  | 0, _, _, _ => none
  | fuel + 1, i, data, float_data_vec =>
    if i < dataSize then do
      let data_low ← wavData[i]?
      let data_high ← wavData[i + 1]?
      wavLoop wavData dataSize fuel (nextIndex i) (data ++ [char2string data_low])
        (float_data_vec ++ [floatData data_low data_high])
    else some (data, float_data_vec)

/-- `readWav` of a file that can be opened, with the memory in `junk`: what the two vectors hold
afterwards. -/
def readWav (long : DataModel) (junk : Nat → Nat → UInt8) (fuel : Nat) (file : Bytes)
    (data : List Bytes) (float_data_vec : List ℚ) : Option (List Bytes × List ℚ) :=
  let (_channel, good) := readAt file true 0x14 (fresh junk 0 2)
  let (_frequency, good) := readAt file good 0x18 (fresh junk 1 long.sizeofLong)
  let (_Bps, good) := readAt file good 0x1c (fresh junk 2 long.sizeofLong)
  let (_sample_num_bit, good) := readAt file good 0x22 (fresh junk 3 2)
  let (data_size, good) := readAt file good 0x28 (fresh junk 4 long.sizeofLong)
  let (wavData, _good) := readAt file good 0x2c (fresh junk 5 (leNat data_size))
  wavLoop wavData (leNat data_size) fuel 0 data float_data_vec

/-- The reader returns, and each sample has been appended as a fraction of 32768. -/
def ReadsBack (long : DataModel) (junk : Nat → Nat → UInt8) (sampleRate channels : Int)
    (parts : List (List (BitVec 16))) : Prop :=
  ∀ data float_data_vec, ∃ fuel data',
    readWav long junk fuel (wavFile sampleRate channels parts) data float_data_vec =
      some (data', float_data_vec ++ parts.flatten.map fun s => (s.toInt : ℚ) / 32768)

/-! ## The file -/

theorem length_wavHeader (sampleRate bitsPerSample channels length : Int) :
    (wavHeader sampleRate bitsPerSample channels length).length = 44 := by
  simp [wavHeader, writeInt32, writeInt16]

theorem sampleBytes_append (s t : List (BitVec 16)) :
    sampleBytes (s ++ t) = sampleBytes s ++ sampleBytes t := List.flatMap_append

theorem length_sampleBytes (s : List (BitVec 16)) : (sampleBytes s).length = 2 * s.length := by
  induction s with
  | nil => rfl
  | cons a s ih =>
    rw [sampleBytes, List.flatMap_cons, ← sampleBytes, List.length_append, leBytes_length, ih,
      List.length_cons]
    omega

/-- Only the samples and their number count, not the calls that wrote them. -/
theorem foldl_writeData (w : WavWriter) (parts : List (List (BitVec 16))) :
    parts.foldl (fun w part => w.writeData (sampleBytes part)) w =
      w.writeData (sampleBytes parts.flatten) := by
  induction parts generalizing w with
  | nil => simp [WavWriter.writeData, sampleBytes]
  | cons part parts ih =>
    rw [List.foldl_cons, ih, List.flatten_cons, sampleBytes_append]
    simp [WavWriter.writeData, Int.add_assoc]

theorem wavFile_eq (sampleRate channels : Int) (parts : List (List (BitVec 16))) :
    wavFile sampleRate channels parts =
      wavHeader sampleRate 16 channels (2 * parts.flatten.length) ++ sampleBytes parts.flatten := by
  rw [wavFile, foldl_writeData, WavWriter.close, length_wavHeader]
  simp only [WavWriter.writeData, WavWriter.open]
  rw [List.drop_left' (length_wavHeader _ _ _ _), length_sampleBytes]
  simp

/-! ## The reader -/

theorem readAt_full (file : Bytes) (pos : Nat) (old : Bytes) (h : pos + old.length ≤ file.length) :
    (readAt file true pos old).2 = true := by
  simp only [readAt, if_true, fread, Nat.one_mul, Nat.div_one]
  rw [List.length_take_of_le (by rw [List.length_drop]; omega)]
  simp

/-- The index stands still, so that the loop does not end once it is entered. -/
theorem wavLoop_stuck {wavData : Bytes} {dataSize i : Nat} (h : i < dataSize) :
    ∀ (fuel : Nat) (data : List Bytes) (float_data_vec : List ℚ),
      wavLoop wavData dataSize fuel i data float_data_vec = none := by
  intro fuel
  induction fuel with
  | zero =>
    intro _ _
    rfl
  | succ fuel ih =>
    intro data float_data_vec
    rw [wavLoop, if_pos h]
    cases wavData[i]? with
    | none => rfl
    | some data_low =>
      cases wavData[i + 1]? with
      | none => rfl
      | some data_high => exact ih _ _

theorem leNat_eq_zero_iff {b : Bytes} : leNat b = 0 ↔ ∀ x ∈ b, x = 0 := by
  induction b with
  | nil => simp [leNat]
  | cons x b ih =>
    rw [leNat, List.forall_mem_cons, ← ih]
    have hx : x.toNat = 0 ↔ x = 0 := by rw [← UInt8.toNat_inj, UInt8.toNat_zero]
    rw [← hx]
    omega

/-- The `data_size` that `readWav` finds. -/
def dataSizeRead (long : DataModel) (junk : Nat → Nat → UInt8) (file : Bytes) : Bytes :=
  (readAt file true 0x28 (fresh junk 4 long.sizeofLong)).1

/-- In front of `data_size` all reads succeed. -/
theorem readWav_eq (long : DataModel) (junk : Nat → Nat → UInt8) {file : Bytes}
    (hfile : 44 ≤ file.length) :
    ∃ wavData, ∀ fuel data float_data_vec, readWav long junk fuel file data float_data_vec =
      wavLoop wavData (leNat (dataSizeRead long junk file)) fuel 0 data float_data_vec := by
  have hlong : long.sizeofLong ≤ 8 := by cases long <;> simp [DataModel.sizeofLong]
  have hchannel := readAt_full file 0x14 (fresh junk 0 2)
    (by rw [fresh_length]; omega)
  have hfrequency := readAt_full file 0x18 (fresh junk 1 long.sizeofLong)
    (by rw [fresh_length]; omega)
  have hBps := readAt_full file 0x1c (fresh junk 2 long.sizeofLong)
    (by rw [fresh_length]; omega)
  have hnum_bit := readAt_full file 0x22 (fresh junk 3 2)
    (by rw [fresh_length]; omega)
  let data_size := readAt file true 0x28 (fresh junk 4 long.sizeofLong)
  refine ⟨(readAt file data_size.2 0x2c (fresh junk 5 (leNat data_size.1))).1,
    fun fuel data float_data_vec => ?_⟩
  simp only [readWav, hchannel, hfrequency, hBps, hnum_bit, dataSizeRead, data_size]

theorem length_wavFile (sampleRate channels : Int) (parts : List (List (BitVec 16))) :
    44 ≤ (wavFile sampleRate channels parts).length := by
  rw [wavFile_eq, List.length_append, length_wavHeader]
  exact Nat.le_add_right 44 _

/-- Without samples only four bytes follow, and the others of `data_size` keep what they had. -/
theorem dataSizeRead_empty (long : DataModel) (junk : Nat → Nat → UInt8) (sampleRate channels : Int)
    {parts : List (List (BitVec 16))} (hparts : parts.flatten = []) :
    dataSizeRead long junk (wavFile sampleRate channels parts) =
      [0, 0, 0, 0] ++ (fresh junk 4 long.sizeofLong).drop 4 := by
  have hrest : (wavFile sampleRate channels parts).drop 0x28 = [0, 0, 0, 0] := by
    rw [wavFile_eq, hparts, sampleBytes, List.flatMap_nil, List.append_nil, wavHeader]
    exact List.drop_left' (by simp [writeInt32, writeInt16])
  have hlong : 4 ≤ long.sizeofLong := by cases long <;> simp [DataModel.sizeofLong]
  rw [dataSizeRead, readAt, if_pos rfl, hrest, fresh_length, fread, List.take_of_length_le]
  · rfl
  · simpa using hlong

/-- **No file with samples is read back, because the loop does not end.** -/
theorem readWav_back_iff (long : DataModel) (junk : Nat → Nat → UInt8) (sampleRate channels : Int)
    (parts : List (List (BitVec 16))) :
    ReadsBack long junk sampleRate channels parts ↔
      parts.flatten = [] ∧ ∀ b ∈ (fresh junk 4 long.sizeofLong).drop 4, b = 0 := by
  obtain ⟨wavData, hread⟩ := readWav_eq long junk (length_wavFile sampleRate channels parts)
  constructor
  · intro h
    obtain ⟨fuel, data', hsome⟩ := h [] []
    rw [hread] at hsome
    have hzero : leNat (dataSizeRead long junk (wavFile sampleRate channels parts)) = 0 := by
      by_contra hpos
      rw [wavLoop_stuck (Nat.pos_of_ne_zero hpos)] at hsome
      cases hsome
    have hparts : parts.flatten = [] := by
      cases fuel with
      | zero => cases hsome
      | succ fuel =>
        rw [hzero, wavLoop, if_neg (Nat.lt_irrefl 0)] at hsome
        have hnil := (Prod.mk.inj (Option.some.inj hsome)).2
        rw [List.nil_append] at hnil
        exact List.map_eq_nil_iff.mp hnil.symm
    refine ⟨hparts, ?_⟩
    rw [dataSizeRead_empty long junk _ _ hparts, leNat_eq_zero_iff] at hzero
    exact fun b hb => hzero b (List.mem_append_right _ hb)
  · intro h data float_data_vec
    obtain ⟨hparts, hjunk⟩ := h
    have hzero : leNat (dataSizeRead long junk (wavFile sampleRate channels parts)) = 0 := by
      rw [dataSizeRead_empty long junk _ _ hparts, leNat_eq_zero_iff]
      intro b hb
      rcases List.mem_append.mp hb with hb | hb
      · simpa using hb
      · exact hjunk b hb
    refine ⟨1, data, ?_⟩
    rw [hread, hzero, hparts, wavLoop, if_neg (Nat.lt_irrefl 0), List.map_nil, List.append_nil]

theorem readWav_one_sample :
    ¬ ReadsBack .lp64 (fun _ _ => 0) 8000 1 [[1]] := by
  intro h
  obtain ⟨fuel, data', hsome⟩ := h [] []
  obtain ⟨wavData, hread⟩ := readWav_eq .lp64 (fun _ _ => 0) (length_wavFile 8000 1 [[1]])
  rw [hread, wavLoop_stuck (by decide)] at hsome
  cases hsome

end CommonTools.Speech
