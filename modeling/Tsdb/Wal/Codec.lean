/-
The payload of a record (`storage/wal/codec.rs`): counts, then series
definitions, then samples, all little-endian and length-prefixed.

# The round trip

`decode_encode`: an encoded payload that fits in a record decodes to what
was encoded, up to what the encoder drops and the decoder normalises
(`WalRecord.logged`). Every length the format truncates to 32 bits is at
most the payload's, so the size check of `append_with` is what makes the
format faithful; nothing else is assumed.

It is proved in two halves with the bytes in between. `encode_eq` says
what the encoder leaves in its buffer: the two counts, which `finish`
writes into a gap left for them, and the entries in order
(`payloadBytes`). The folds over series and samples are inductions on
the lists. `readRecordBody_parses` says that these bytes are read as the
record, whatever follows them; it is assembled from one lemma for each
reader, along the grammar, with the rules of `Lib.Parser` for sequence
and repetition.

A repetition has a fast refusal: a count that could not fit in what is
left of the payload. It never refuses an encoded payload, because an
entry has a least length (`labelBytes_min` and the three like it) and a
piece is no longer than the whole.

`Tsdb.Wal.Grammar` is about bytes that nobody encoded.

# Counters

The encoder counts entries in `u32`s. A count beyond their range needs a
record of over 48 GiB and is an arithmetic overflow in the source; the
counters here are natural numbers, written out modulo `2 ^ 32`.
-/
import Tsdb.Lib.Parser
import Tsdb.Wal.Record

namespace Tsdb.Wal

open Lib (Bytes toLE ofLE Parser Parses)

-- ============================================================== encoding

def putU32 (out : Bytes) (v : Nat) : Bytes := out ++ toLE 4 v

def putU64 (out : Bytes) (v : Nat) : Bytes := out ++ toLE 8 v

def putF64 (out : Bytes) (bits : UInt64) : Bytes := out ++ toLE 8 bits.toNat

def putBytes (out b : Bytes) : Bytes := putU32 out b.length ++ b

/-- `str::as_bytes`. -/
def asBytes (s : String) : Bytes := s.toByteArray.data.toList

/-- `LabelSet::encode`. -/
def encodeLabelSet (out : Bytes) (ls : LabelSet) : Bytes :=
  ls.labels.foldl
    (fun out l => putBytes (putBytes out (asBytes l.name)) (asBytes l.value))
    (putU32 out ls.labels.length)

/-- `out[i..i + bs.len()].copy_from_slice(bs)`. -/
def copyFromSlice (out : Bytes) (i : Nat) (bs : Bytes) : Bytes :=
  out.take i ++ bs ++ out.drop (i + bs.length)

def countsLen : Nat := 4 + 4

def sampleEncodedLen : Nat := 8 + 8

structure RecordEncoder where
  out : Bytes
  seriesCount : Nat
  samplesCount : Nat

namespace RecordEncoder

def new : RecordEncoder where
  out := List.replicate (RecordHeader.encodedLen + countsLen) 0
  seriesCount := 0
  samplesCount := 0

def series (enc : RecordEncoder) (id : SeriesId) (labels : LabelSet) :
    RecordEncoder :=
  { enc with
    seriesCount := enc.seriesCount + 1
    out := encodeLabelSet (putU64 enc.out id) labels }

def samples (enc : RecordEncoder) (id : SeriesId) (samples : List Sample) :
    RecordEncoder :=
  if samples = [] then enc
  else
    { enc with
      samplesCount := enc.samplesCount + 1
      out := samples.foldl
        (fun out s => putF64 (putU64 out s.timestamp.toNat) s.value)
        (putU32 (putU64 enc.out id) samples.length) }

/-- `RecordEncoder::finish`: is the record empty, the length of its
payload, and the buffer. -/
def finish (enc : RecordEncoder) : Bool × Nat × Bytes :=
  let h := RecordHeader.encodedLen
  let out := copyFromSlice enc.out h (toLE 4 enc.seriesCount)
  let out := copyFromSlice out (h + 4) (toLE 4 enc.samplesCount)
  let payloadLen := out.length - h
  let header := RecordHeader.forPayload .write (out.drop h)
  let out := copyFromSlice out 0 header.encode
  (enc.seriesCount == 0 && enc.samplesCount == 0, payloadLen, out)

end RecordEncoder

/-- The encoder run by `WalWriter::append`: all series, then all
samples. -/
def encode (rec : WalRecord) : Bool × Nat × Bytes :=
  let enc : RecordEncoder :=
    rec.series.foldl (fun enc e => enc.series e.id e.labels)
      RecordEncoder.new
  let enc : RecordEncoder :=
    rec.samples.foldl (fun enc e => enc.samples e.id e.samples) enc
  enc.finish

-- ============================================================== decoding

abbrev Reader := Parser UInt8 CodecError

namespace Reader

/-- `Reader::take`. -/
def take (n : Nat) : Reader Bytes := Parser.take .unexpectedEof n

def readU32 : Reader Nat := ofLE <$> take 4

def readU64 : Reader Nat := ofLE <$> take 8

def readF64 : Reader UInt64 := (fun bs => UInt64.ofNat (ofLE bs)) <$> take 8

def readStr : Reader String := do
  let len ← readU32
  let bytes ← take len
  match String.fromUTF8? ⟨bytes.toArray⟩ with
  | some s => pure s
  | none => throw .badUtf8

end Reader

open Reader

def readLabel : Reader Label := do
  let name ← readStr
  let value ← readStr
  pure { name, value }

/-- `LabelSet::decode`. -/
def decodeLabelSet : Reader LabelSet := do
  let n ← readU32
  let remaining ← Parser.remaining
  if n > remaining / (4 + 4) then throw .unexpectedEof else do
    let labels ← Parser.many readLabel n
    pure (LabelSet.fromLabels labels)

def readSeriesEntry : Reader SeriesEntry := do
  let id ← readU64
  let labels ← decodeLabelSet
  pure { id, labels }

def readSample : Reader Sample := do
  let timestamp ← readU64
  let value ← readF64
  pure { timestamp := UInt64.ofNat timestamp, value }

def readSamplesEntry : Reader SamplesEntry := do
  let id ← readU64
  let n ← readU32
  let remaining ← Parser.remaining
  if n > remaining / sampleEncodedLen then throw .unexpectedEof else do
    let samples ← Parser.many readSample n
    pure { id, samples }

def readRecordBody : Reader WalRecord := do
  let nSeries ← readU32
  let nSamples ← readU32
  let remaining ← Parser.remaining
  if nSeries + nSamples > remaining / (8 + 4) then throw .unexpectedEof
  else do
    let series ← Parser.many readSeriesEntry nSeries
    let samples ← Parser.many readSamplesEntry nSamples
    pure { series, samples }

def decode (kind : RecordKind) (payload : Bytes) :
    Except CodecError WalRecord :=
  match kind with
  | .write =>
      match readRecordBody.run payload with
      | .error e => .error e
      | .ok (rec, rest) =>
          if rest ≠ [] then .error .trailingBytes else .ok rec

-- ================================================== the bytes of a record

def labelBytes (l : Label) : Bytes :=
  toLE 4 (asBytes l.name).length ++ asBytes l.name
    ++ (toLE 4 (asBytes l.value).length ++ asBytes l.value)

def labelSetBytes (ls : LabelSet) : Bytes :=
  toLE 4 ls.labels.length ++ (ls.labels.map labelBytes).flatten

def seriesBytes (e : SeriesEntry) : Bytes :=
  toLE 8 e.id ++ labelSetBytes e.labels

def sampleBytes (s : Sample) : Bytes :=
  toLE 8 s.timestamp.toNat ++ toLE 8 s.value.toNat

def samplesBytes (e : SamplesEntry) : Bytes :=
  toLE 8 e.id
    ++ (toLE 4 e.samples.length ++ (e.samples.map sampleBytes).flatten)

/-- The samples entries the encoder writes. -/
def WalRecord.nonempty (rec : WalRecord) : List SamplesEntry :=
  rec.samples.filter (·.samples ≠ [])

def payloadBytes (rec : WalRecord) : Bytes :=
  toLE 4 rec.series.length ++ (toLE 4 rec.nonempty.length
    ++ ((rec.series.map seriesBytes).flatten
      ++ (rec.nonempty.map samplesBytes).flatten))

/-- A whole record on disk. -/
def recordBytes (rec : WalRecord) : Bytes :=
  (RecordHeader.forPayload .write (payloadBytes rec)).encode
    ++ payloadBytes rec

/-- Nothing to log. -/
def WalRecord.isEmpty (rec : WalRecord) : Bool :=
  rec.series.isEmpty && rec.nonempty.isEmpty

private theorem encodeLabelSet_eq (out : Bytes) (ls : LabelSet) :
    encodeLabelSet out ls = out ++ labelSetBytes ls := by
  have hloop : ∀ (labels : List Label) (out : Bytes),
      labels.foldl (fun out l =>
          putBytes (putBytes out (asBytes l.name)) (asBytes l.value)) out
        = out ++ (labels.map labelBytes).flatten := by
    intro labels
    induction labels with
    | nil => simp
    | cons l labels ih =>
        intro out
        rw [List.foldl_cons, ih]
        simp [putBytes, putU32, labelBytes]
  rw [encodeLabelSet, hloop, putU32, labelSetBytes, List.append_assoc]

private theorem foldl_series (entries : List SeriesEntry)
    (enc : RecordEncoder) :
    entries.foldl (fun enc e => enc.series e.id e.labels) enc
      = { out := enc.out ++ (entries.map seriesBytes).flatten
          seriesCount := enc.seriesCount + entries.length
          samplesCount := enc.samplesCount } := by
  induction entries generalizing enc with
  | nil => simp
  | cons e entries ih =>
      rw [List.foldl_cons, ih]
      simp only [RecordEncoder.series, encodeLabelSet_eq, putU64,
        seriesBytes, List.map_cons, List.flatten_cons, List.append_assoc,
        List.length_cons]
      congr 1
      omega

private theorem samples_eq (enc : RecordEncoder) (e : SamplesEntry)
    (h : e.samples ≠ []) :
    enc.samples e.id e.samples
      = { enc with
          out := enc.out ++ samplesBytes e
          samplesCount := enc.samplesCount + 1 } := by
  have hloop : ∀ (samples : List Sample) (out : Bytes),
      samples.foldl (fun out s =>
          putF64 (putU64 out s.timestamp.toNat) s.value) out
        = out ++ (samples.map sampleBytes).flatten := by
    intro samples
    induction samples with
    | nil => simp
    | cons s samples ih =>
        intro out
        rw [List.foldl_cons, ih]
        simp [putF64, putU64, sampleBytes]
  rw [RecordEncoder.samples, if_neg h, hloop]
  simp [putU64, putU32, samplesBytes]

private theorem foldl_samples (entries : List SamplesEntry)
    (enc : RecordEncoder) :
    entries.foldl (fun enc e => enc.samples e.id e.samples) enc
      = { enc with
          out := enc.out
            ++ ((entries.filter (·.samples ≠ [])).map samplesBytes).flatten
          samplesCount := enc.samplesCount
            + (entries.filter (·.samples ≠ [])).length } := by
  induction entries generalizing enc with
  | nil => simp
  | cons e entries ih =>
      rw [List.foldl_cons, ih]
      by_cases he : e.samples = []
      · rw [RecordEncoder.samples, if_pos he,
          List.filter_cons_of_neg (by simp [he])]
      · rw [samples_eq enc e he, List.filter_cons_of_pos (by simp [he])]
        simp only [List.map_cons, List.flatten_cons, List.append_assoc,
          List.length_cons]
        congr 1
        omega

private theorem copyFromSlice_middle (a b c bs : Bytes)
    (hb : b.length = bs.length) :
    copyFromSlice (a ++ (b ++ c)) a.length bs = a ++ bs ++ c := by
  unfold copyFromSlice
  rw [List.take_left, List.drop_append, ← hb]
  simp

/-- `finish` fills in the counts and the header before the entries. The
three copies go to places that are in front of what has been written, so
each replaces a part of the zeros `new` reserved. -/
private theorem finish_eq (enc : RecordEncoder) (entries : Bytes)
    (h : enc.out = RecordEncoder.new.out ++ entries) :
    let payload := toLE 4 enc.seriesCount
      ++ (toLE 4 enc.samplesCount ++ entries)
    enc.finish
      = (enc.seriesCount == 0 && enc.samplesCount == 0, payload.length,
        (RecordHeader.forPayload .write payload).encode ++ payload) := by
  intro payload
  -- the zeros `new` reserved: header, series count, samples count
  obtain ⟨z, hz, hout⟩ : ∃ z : Bytes, z.length = RecordHeader.encodedLen
      ∧ enc.out = z ++ (List.replicate 4 0
          ++ (List.replicate 4 0 ++ entries)) := by
    refine ⟨List.replicate RecordHeader.encodedLen 0, by simp, ?_⟩
    rw [h, RecordEncoder.new, ← List.append_assoc (List.replicate 4 0),
      List.replicate_append_replicate, ← List.append_assoc,
      List.replicate_append_replicate]
    rfl
  have h₁ : copyFromSlice enc.out RecordHeader.encodedLen
      (toLE 4 enc.seriesCount)
      = z ++ toLE 4 enc.seriesCount ++ (List.replicate 4 0 ++ entries) := by
    rw [hout, ← hz, copyFromSlice_middle _ _ _ _ (by simp)]
  have h₂ : copyFromSlice
      (z ++ toLE 4 enc.seriesCount ++ (List.replicate 4 0 ++ entries))
      (RecordHeader.encodedLen + 4) (toLE 4 enc.samplesCount)
      = z ++ payload := by
    have hlen : RecordHeader.encodedLen + 4
        = (z ++ toLE 4 enc.seriesCount).length := by
      rw [List.length_append, hz, Lib.toLE_length]
    rw [hlen, copyFromSlice_middle _ _ _ _ (by simp)]
    simp only [List.append_assoc, payload]
  have h₃ : copyFromSlice (z ++ payload) 0
      (RecordHeader.forPayload .write payload).encode
      = (RecordHeader.forPayload .write payload).encode ++ payload := by
    have := copyFromSlice_middle [] z payload
      (RecordHeader.forPayload .write payload).encode
      (by rw [hz, RecordHeader.encode_length])
    simpa using this
  simp only [RecordEncoder.finish, h₁, h₂, List.drop_left' hz, h₃,
    List.length_append, hz, Nat.add_sub_cancel_left]

/-- What the encoder leaves in the buffer. -/
theorem encode_eq (rec : WalRecord) :
    encode rec
      = (rec.isEmpty, (payloadBytes rec).length, recordBytes rec) := by
  simp only [encode]
  rw [foldl_series, foldl_samples, finish_eq _
    ((rec.series.map seriesBytes).flatten
      ++ ((rec.samples.filter (·.samples ≠ [])).map samplesBytes).flatten)
    (by simp only [List.append_assoc])]
  simp only [RecordEncoder.new, Nat.zero_add]
  rw [← WalRecord.nonempty, ← payloadBytes, ← recordBytes,
    WalRecord.isEmpty]
  cases rec.series <;> cases rec.nonempty <;> rfl

-- ======================================================== the round trip

/-- The ids are 64-bit words, as their type says in the source. -/
def WalRecord.IdsFit (rec : WalRecord) : Prop :=
  (∀ e ∈ rec.series, e.id < 2 ^ 64) ∧ ∀ e ∈ rec.samples, e.id < 2 ^ 64

/-- What `append_with` passes on to the buffer: a record that is not
empty, and whose payload is within the limit. -/
def WalRecord.Accepted (rec : WalRecord) : Prop :=
  rec.IdsFit ∧ (encode rec).1 = false ∧ (encode rec).2.1 ≤ maxRecordBytes

instance (rec : WalRecord) : Decidable rec.IdsFit :=
  inferInstanceAs (Decidable (_ ∧ _))

instance (rec : WalRecord) : Decidable rec.Accepted :=
  inferInstanceAs (Decidable (_ ∧ _))

/-- Encoded records, one after the other. -/
def logBytes (recs : List WalRecord) : Bytes :=
  (recs.map fun rec => (encode rec).2.2).flatten

/-- A record as it reads back: label sets go through `from_labels`, and
entries without samples are gone. -/
def WalRecord.logged (rec : WalRecord) : WalRecord where
  series := rec.series.map fun e =>
    { e with labels := LabelSet.fromLabels e.labels.labels }
  samples := rec.nonempty

/-- What the lengths and counts of the format can say: each is a `u32`. -/
def labelFits (l : Label) : Prop :=
  (asBytes l.name).length < 2 ^ 32 ∧ (asBytes l.value).length < 2 ^ 32

def labelsFit (ls : LabelSet) : Prop :=
  ls.labels.length < 2 ^ 32 ∧ ∀ l ∈ ls.labels, labelFits l

def SeriesEntry.Fits (e : SeriesEntry) : Prop :=
  e.id < 2 ^ 64 ∧ labelsFit e.labels

def SamplesEntry.Fits (e : SamplesEntry) : Prop :=
  e.id < 2 ^ 64 ∧ e.samples.length < 2 ^ 32

structure WalRecord.Fits (rec : WalRecord) : Prop where
  counts : rec.series.length < 2 ^ 32 ∧ rec.samples.length < 2 ^ 32
  series : ∀ e ∈ rec.series, e.Fits
  samples : ∀ e ∈ rec.samples, e.Fits

/-- The bytes that describe a record, entry by entry. -/
def bodyBytes (rec : WalRecord) : Bytes :=
  toLE 4 rec.series.length ++ (toLE 4 rec.samples.length
    ++ ((rec.series.map seriesBytes).flatten
      ++ (rec.samples.map samplesBytes).flatten))

/-- A record with each label list passed through `from_labels`. -/
def WalRecord.normal (rec : WalRecord) : WalRecord where
  series := rec.series.map fun e =>
    { e with labels := LabelSet.fromLabels e.labels.labels }
  samples := rec.samples

private theorem readU32_parses {v : Nat} (h : v < 2 ^ 32) :
    Parses readU32 v (toLE 4 v) := by
  have := (Parses.take CodecError.unexpectedEof (toLE 4 v)).map ofLE
  rwa [Lib.toLE_length, Lib.ofLE_toLE_of_lt (by simpa using h)] at this

private theorem readU64_parses {v : Nat} (h : v < 2 ^ 64) :
    Parses readU64 v (toLE 8 v) := by
  have := (Parses.take CodecError.unexpectedEof (toLE 8 v)).map ofLE
  rwa [Lib.toLE_length, Lib.ofLE_toLE_of_lt (by simpa using h)] at this

private theorem readF64_parses (v : UInt64) :
    Parses readF64 v (toLE 8 v.toNat) := by
  have := (Parses.take CodecError.unexpectedEof (toLE 8 v.toNat)).map
    fun bs => UInt64.ofNat (ofLE bs)
  rwa [Lib.toLE_length, Lib.ofLE_toLE_of_lt v.toNat_lt,
    UInt64.ofNat_toNat] at this

theorem fromUTF8?_asBytes (s : String) :
    String.fromUTF8? ⟨(asBytes s).toArray⟩ = some s := by
  have hbytes : (⟨(asBytes s).toArray⟩ : ByteArray) = s.toByteArray := by
    simp [asBytes]
  rw [hbytes]
  unfold String.fromUTF8?
  rw [dif_pos s.isValidUTF8]
  rfl

theorem asBytes_of_fromUTF8? {bytes : Bytes} {s : String}
    (h : String.fromUTF8? ⟨bytes.toArray⟩ = some s) : asBytes s = bytes := by
  unfold String.fromUTF8? at h
  split at h
  · cases h
    rfl
  · cases h

private theorem readStr_parses {s : String}
    (h : (asBytes s).length < 2 ^ 32) :
    Parses readStr s (toLE 4 (asBytes s).length ++ asBytes s) := by
  refine (readU32_parses h).bind
    ((Parses.take CodecError.unexpectedEof (asBytes s)).bind_nil ?_)
  rw [fromUTF8?_asBytes]
  exact Parses.pure s

private theorem readLabel_parses {l : Label} (h : labelFits l) :
    Parses readLabel l (labelBytes l) :=
  (readStr_parses h.1).bind ((readStr_parses h.2).bind_nil (Parses.pure _))

/-- A piece of a concatenation is no longer than the whole. -/
private theorem length_le_flatten {α : Type} {f : α → Bytes} {xs : List α}
    {x : α} (hx : x ∈ xs) : (f x).length ≤ (xs.map f).flatten.length := by
  obtain ⟨l, r, rfl⟩ := List.append_of_mem hx
  simp only [List.map_append, List.map_cons, List.flatten_append,
    List.flatten_cons, List.length_append]
  omega

/-- Pieces of at least `k` bytes need `k` bytes each. -/
private theorem mul_length_le_flatten {α : Type} {f : α → Bytes} {k : Nat}
    {xs : List α} (h : ∀ x ∈ xs, k ≤ (f x).length) :
    k * xs.length ≤ (xs.map f).flatten.length := by
  induction xs with
  | nil => simp
  | cons x xs ih =>
      have hx := h x List.mem_cons_self
      have hxs := ih fun y hy => h y (List.mem_cons_of_mem x hy)
      rw [List.map_cons, List.flatten_cons, List.length_append,
        List.length_cons, Nat.mul_succ]
      omega

theorem labelBytes_min (ls : LabelSet) :
    8 * ls.labels.length ≤ (ls.labels.map labelBytes).flatten.length := by
  refine mul_length_le_flatten fun l _ => ?_
  simp only [labelBytes, List.length_append, Lib.toLE_length]
  omega

theorem sampleBytes_min (samples : List Sample) :
    16 * samples.length ≤ (samples.map sampleBytes).flatten.length := by
  refine mul_length_le_flatten fun s _ => ?_
  simp [sampleBytes]

theorem seriesBytes_min (es : List SeriesEntry) :
    12 * es.length ≤ (es.map seriesBytes).flatten.length := by
  refine mul_length_le_flatten fun e _ => ?_
  simp only [seriesBytes, labelSetBytes, List.length_append, Lib.toLE_length]
  omega

theorem samplesBytes_min (es : List SamplesEntry) :
    12 * es.length ≤ (es.map samplesBytes).flatten.length := by
  refine mul_length_le_flatten fun e _ => ?_
  simp only [samplesBytes, List.length_append, Lib.toLE_length]
  omega

private theorem decodeLabelSet_parses {ls : LabelSet} (h : labelsFit ls) :
    Parses decodeLabelSet (LabelSet.fromLabels ls.labels)
      (labelSetBytes ls) := by
  have hmin := labelBytes_min ls
  refine (readU32_parses h.1).bind
    (Parses.guarded (fun n hn => by omega) ?_)
  have hmany : Parses (Parser.many readLabel ls.labels.length) ls.labels
      (ls.labels.map labelBytes).flatten :=
    Parses.many_same fun l hl => readLabel_parses (h.2 l hl)
  exact hmany.bind_nil (Parses.pure _)

private theorem readSeriesEntry_parses {e : SeriesEntry} (h : e.Fits) :
    Parses readSeriesEntry
      { e with labels := LabelSet.fromLabels e.labels.labels }
      (seriesBytes e) :=
  (readU64_parses h.1).bind
    ((decodeLabelSet_parses h.2).bind_nil (Parses.pure _))

private theorem readSample_parses (s : Sample) :
    Parses readSample s (sampleBytes s) := by
  refine (readU64_parses s.timestamp.toNat_lt).bind
    ((readF64_parses s.value).bind_nil ?_)
  rw [UInt64.ofNat_toNat]
  exact Parses.pure s

private theorem readSamplesEntry_parses {e : SamplesEntry} (h : e.Fits) :
    Parses readSamplesEntry e (samplesBytes e) := by
  have hmin := sampleBytes_min e.samples
  refine (readU64_parses h.1).bind ((readU32_parses h.2).bind
    (Parses.guarded (fun n hn => by rw [sampleEncodedLen]; omega) ?_))
  have hmany : Parses (Parser.many readSample e.samples.length) e.samples
      (e.samples.map sampleBytes).flatten :=
    Parses.many_same fun s _ => readSample_parses s
  exact hmany.bind_nil (Parses.pure _)

/-- What describes a record is read as it. -/
theorem readRecordBody_parses {rec : WalRecord} (h : rec.Fits) :
    Parses readRecordBody rec.normal (bodyBytes rec) := by
  have hser := seriesBytes_min rec.series
  have hsam := samplesBytes_min rec.samples
  refine (readU32_parses h.counts.1).bind
    ((readU32_parses h.counts.2).bind
    (Parses.guarded (fun n hn => ?_) (Parses.bind
      (Parses.many_map fun e he => readSeriesEntry_parses (h.series e he))
      (Parses.bind_nil (a := rec.samples) ?_ (Parses.pure _)))))
  · rw [List.length_append] at hn
    omega
  · exact Parses.many_same fun e he =>
      readSamplesEntry_parses (h.samples e he)

/-- In a payload of less than 2^32 bytes everything fits. -/
theorem fits_of_payload {rec : WalRecord} (hids : rec.IdsFit)
    (h : (payloadBytes rec).length < 2 ^ 32) :
    WalRecord.Fits ⟨rec.series, rec.nonempty⟩ := by
  have hser := seriesBytes_min rec.series
  have hsam := samplesBytes_min rec.nonempty
  simp only [payloadBytes, List.length_append, Lib.toLE_length] at h
  refine ⟨⟨by simp only; omega, by simp only; omega⟩, fun e he => ?_,
    fun e he => ?_⟩
  · have hpiece := length_le_flatten (f := seriesBytes) he
    have hmin := labelBytes_min e.labels
    simp only [seriesBytes, labelSetBytes, List.length_append,
      Lib.toLE_length] at hpiece
    refine ⟨hids.1 e he, by omega, fun l hl => ?_⟩
    have hlabel := length_le_flatten (f := labelBytes) hl
    simp only [labelBytes, List.length_append, Lib.toLE_length] at hlabel
    exact ⟨by omega, by omega⟩
  · have hpiece := length_le_flatten (f := samplesBytes) he
    have hmin := sampleBytes_min e.samples
    simp only [samplesBytes, List.length_append, Lib.toLE_length] at hpiece
    exact ⟨hids.2 e (List.mem_of_mem_filter he), by omega⟩

/-- A payload that fits in a record reads back. -/
theorem decode_encode {rec : WalRecord} (hids : rec.IdsFit)
    (h : (payloadBytes rec).length ≤ maxRecordBytes) :
    decode .write (payloadBytes rec) = .ok rec.logged := by
  have hlt : (payloadBytes rec).length < 2 ^ 32 := by
    rw [maxRecordBytes] at h
    omega
  have hrun := readRecordBody_parses (fits_of_payload hids hlt) []
  rw [List.append_nil] at hrun
  have hbytes : payloadBytes rec = bodyBytes ⟨rec.series, rec.nonempty⟩ := rfl
  rw [decode, hbytes, hrun]
  rfl

end Tsdb.Wal
