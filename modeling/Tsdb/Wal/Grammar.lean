/-
What the decoder accepts (`storage/wal/codec.rs`): the strings of its
grammar, and no others.

`WalRecord.Fits raw` says that every count and length of `raw` is a `u32`,
and `bodyBytes raw` writes it down, count by count. A payload decodes
exactly if it is such a string, to `raw` with each label list passed through
`from_labels` (`decode_accepts`).

# Both directions

That a string of the grammar is decoded has been shown for the round trip
(`readRecordBody_parses` in `Codec.lean`), without asking who wrote it.
For the converse each reader gets a second lemma, of the form `Reads` of
`Lib.Parser`: if it returns something, the bytes it took describe it. These
are as many as there are readers, and each follows from those of its parts
by the rules for sequence and repetition.

The checks the decoder makes before it reserves memory only refuse what
the loops behind them would refuse: a count that passes them may still be
too large, and one that does not is too large, because each entry takes
its least number of bytes. So the grammar does not mention them.

# The whole writer

With the limit of the writer and the framing of the reader, what `append`
accepts is read back as it was given (`append_reads_back`), from a file
that goes on behind it in any way. `append` drops records that are empty
and refuses those whose payload is too long; for all others the payload's
length bounds every count and length in it, so `Fits` need not be assumed.
-/
import Tsdb.Wal.Machine

namespace Tsdb.Wal

open Lib (Bytes toLE ofLE Parser Parses Reads)
open Reader

-- ============================================================ what is read

private theorem readU32_reads :
    Reads readU32 (fun v used => v < 2 ^ 32 ∧ used = toLE 4 v) := by
  refine ((Reads.take CodecError.unexpectedEof 4).map ofLE).mono ?_
  intro v used h
  obtain ⟨bs, rfl, rfl, hlen⟩ := h
  have hlt := Lib.ofLE_lt bs
  have heq := Lib.toLE_ofLE bs
  rw [hlen] at hlt heq
  exact ⟨hlt, heq.symm⟩

private theorem readU64_reads :
    Reads readU64 (fun v used => v < 2 ^ 64 ∧ used = toLE 8 v) := by
  refine ((Reads.take CodecError.unexpectedEof 8).map ofLE).mono ?_
  intro v used h
  obtain ⟨bs, rfl, rfl, hlen⟩ := h
  have hlt := Lib.ofLE_lt bs
  have heq := Lib.toLE_ofLE bs
  rw [hlen] at hlt heq
  exact ⟨hlt, heq.symm⟩

private theorem readF64_reads :
    Reads readF64 (fun v used => used = toLE 8 v.toNat) := by
  refine ((Reads.take CodecError.unexpectedEof 8).map
    fun bs => UInt64.ofNat (ofLE bs)).mono ?_
  intro v used h
  obtain ⟨bs, rfl, rfl, hlen⟩ := h
  have hlt := Lib.ofLE_lt bs
  have heq := Lib.toLE_ofLE bs
  rw [hlen] at hlt heq
  have hlt' : ofLE bs < 2 ^ 64 := hlt
  rw [UInt64.toNat_ofNat', Nat.mod_eq_of_lt hlt', heq]

private theorem readStr_reads :
    Reads readStr (fun s used => (asBytes s).length < 2 ^ 32
      ∧ used = toLE 4 (asBytes s).length ++ asBytes s) := by
  refine (readU32_reads.bind fun len =>
    (Reads.take CodecError.unexpectedEof len).bind
      (H := fun bytes s used => asBytes s = bytes ∧ used = [])
      fun bytes => ?_).mono ?_
  · cases hs : String.fromUTF8? ⟨bytes.toArray⟩ with
    | none => exact (Reads.throw _).mono fun _ _ h => h.elim
    | some s =>
        refine (Reads.pure s).mono fun s' used h => ?_
        rw [h.1]
        exact ⟨asBytes_of_fromUTF8? hs, h.2⟩
  intro s used h
  obtain ⟨len, u, v, rfl, ⟨hlt, rfl⟩, bytes, u', v', rfl, ⟨rfl, rfl⟩, hs,
    rfl⟩ := h
  rw [hs, List.append_nil]
  exact ⟨hlt, rfl⟩

private theorem readLabel_reads :
    Reads readLabel (fun l used => ∃ l' : Label,
      l = id l' ∧ labelFits l' ∧ used = labelBytes l') := by
  refine (readStr_reads.bind fun name => readStr_reads.bind fun value =>
    Reads.pure (⟨name, value⟩ : Label)).mono ?_
  intro l used h
  obtain ⟨name, u, v, rfl, ⟨hname, rfl⟩, value, u', v', rfl, ⟨hvalue, rfl⟩,
    rfl, rfl⟩ := h
  rw [List.append_nil]
  exact ⟨⟨name, value⟩, rfl, ⟨hname, hvalue⟩, rfl⟩

private theorem decodeLabelSet_reads :
    Reads decodeLabelSet (fun ls used => ∃ raw : LabelSet,
      ls = LabelSet.fromLabels raw.labels ∧ labelsFit raw
        ∧ used = labelSetBytes raw) := by
  refine (readU32_reads.bind fun n => Reads.guarded
    ((readLabel_reads.many n).bind fun labels =>
      Reads.pure (LabelSet.fromLabels labels))).mono ?_
  intro ls used h
  obtain ⟨n, u, v, rfl, ⟨hn, rfl⟩, labels, u', v', rfl,
    ⟨raw, rfl, rfl, hraw, rfl⟩, rfl, rfl⟩ := h
  rw [List.map_id, List.append_nil]
  exact ⟨⟨raw⟩, rfl, ⟨hn, hraw⟩, rfl⟩

private theorem readSeriesEntry_reads :
    Reads readSeriesEntry (fun e used => ∃ raw : SeriesEntry,
      e = { raw with labels := LabelSet.fromLabels raw.labels.labels }
        ∧ raw.Fits ∧ used = seriesBytes raw) := by
  refine (readU64_reads.bind fun id => decodeLabelSet_reads.bind fun labels =>
    Reads.pure (⟨id, labels⟩ : SeriesEntry)).mono ?_
  intro e used h
  obtain ⟨id, u, v, rfl, ⟨hid, rfl⟩, labels, u', v', rfl,
    ⟨raw, rfl, hraw, rfl⟩, rfl, rfl⟩ := h
  rw [List.append_nil]
  exact ⟨⟨id, raw⟩, rfl, ⟨hid, hraw⟩, rfl⟩

private theorem readSample_reads :
    Reads readSample (fun s used => ∃ s' : Sample,
      s = id s' ∧ True ∧ used = sampleBytes s') := by
  refine (readU64_reads.bind fun t => readF64_reads.bind fun value =>
    Reads.pure (⟨UInt64.ofNat t, value⟩ : Sample)).mono ?_
  intro s used h
  obtain ⟨t, u, v, rfl, ⟨ht, rfl⟩, value, u', v', rfl, rfl, rfl, rfl⟩ := h
  have hback : (UInt64.ofNat t).toNat = t := by
    rw [UInt64.toNat_ofNat', Nat.mod_eq_of_lt ht]
  refine ⟨⟨UInt64.ofNat t, value⟩, rfl, trivial, ?_⟩
  rw [sampleBytes, hback, List.append_nil]

private theorem readSamplesEntry_reads :
    Reads readSamplesEntry (fun e used => ∃ e' : SamplesEntry,
      e = id e' ∧ e'.Fits ∧ used = samplesBytes e') := by
  refine (readU64_reads.bind fun id => readU32_reads.bind fun n =>
    Reads.guarded ((readSample_reads.many n).bind fun samples =>
      Reads.pure (⟨id, samples⟩ : SamplesEntry))).mono ?_
  intro e used h
  obtain ⟨i, u, v, rfl, ⟨hid, rfl⟩, n, u', v', rfl, ⟨hn, rfl⟩, samples, u'',
    v'', rfl, ⟨raw, rfl, rfl, -, rfl⟩, rfl, rfl⟩ := h
  rw [List.map_id, List.append_nil]
  exact ⟨⟨i, raw⟩, rfl, ⟨hid, hn⟩, rfl⟩

private theorem readRecordBody_reads :
    Reads readRecordBody (fun rec used => ∃ raw : WalRecord,
      rec = raw.normal ∧ raw.Fits ∧ used = bodyBytes raw) := by
  refine (readU32_reads.bind fun nSeries => readU32_reads.bind fun nSamples =>
    Reads.guarded ((readSeriesEntry_reads.many nSeries).bind fun series =>
      (readSamplesEntry_reads.many nSamples).bind fun samples =>
        Reads.pure (⟨series, samples⟩ : WalRecord))).mono ?_
  intro rec used h
  obtain ⟨n, u, v, rfl, ⟨hn, rfl⟩, k, u', v', rfl, ⟨hk, rfl⟩, series, u₁, v₁,
    rfl, ⟨rawSeries, rfl, rfl, hseries, rfl⟩, samples, u₂, v₂, rfl,
    ⟨rawSamples, rfl, rfl, hsamples, rfl⟩, rfl, rfl⟩ := h
  rw [List.map_id, List.append_nil]
  exact ⟨⟨rawSeries, rawSamples⟩, rfl, ⟨⟨hn, hk⟩, hseries, hsamples⟩, rfl⟩

-- ============================================================= the grammar

/-- A payload decodes exactly if it describes a record, to that record with
its label lists passed through `from_labels`; and where the label lists are
ascending and no samples entry is empty, encoding the record again gives the
payload back.

From left to right each reader says what the bytes it took describe, and the
end of the payload has been reached; from right to left the description is
read again. Encoding drops and sorts nothing where there is nothing to drop
and to sort. -/
theorem decode_accepts (p : Bytes) (rec : WalRecord) :
    (decode .write p = .ok rec
      ↔ ∃ raw : WalRecord, raw.Fits ∧ p = bodyBytes raw ∧ rec = raw.normal)
    ∧ ∀ raw : WalRecord, raw.Fits → p = bodyBytes raw → rec = raw.normal →
        (∀ e ∈ raw.series, e.labels.Canonical) →
        (∀ e ∈ raw.samples, e.samples ≠ []) →
        (encode rec).2 = (p.length,
          (RecordHeader.forPayload .write p).encode ++ p) := by
  refine ⟨⟨fun h => ?_, fun h => ?_⟩, fun raw _ hp hrec hasc hne => ?_⟩
  · rw [decode] at h
    cases hrun : readRecordBody.run p with
    | error e =>
        rw [hrun] at h
        cases h
    | ok r =>
        obtain ⟨rec', rest⟩ := r
        rw [hrun] at h
        simp only at h
        split at h
        · cases h
        · rename_i hrest
          cases h
          obtain ⟨used, hts, raw, hrec, hfits, hused⟩ :=
            readRecordBody_reads p _ _ hrun
          rw [not_not.mp hrest, List.append_nil] at hts
          exact ⟨raw, hfits, hts.trans hused, hrec⟩
  · obtain ⟨raw, hfits, rfl, rfl⟩ := h
    have hrun := readRecordBody_parses hfits []
    rw [List.append_nil] at hrun
    rw [decode, hrun]
    rfl
  · -- nothing is normalised away
    have hseries : raw.normal.series = raw.series := by
      refine (List.map_congr_left fun e he => ?_).trans (List.map_id _)
      rw [LabelSet.fromLabels_canonical (hasc e he)]
      rfl
    have hsamples : raw.normal.nonempty = raw.samples :=
      List.filter_eq_self.mpr fun e he => by simpa using hne e he
    have hpayload : payloadBytes rec = p := by
      rw [hrec, hp, payloadBytes, bodyBytes, hseries, hsamples]
    rw [encode_eq, hpayload, recordBytes, hpayload]

-- ======================================================== the whole writer

/-- What `append` accepts and does not drop is read back, whatever follows
it and however the file hands it out: `read_record` finds one record, ends
behind it, and its payload decodes to the series and the samples entries as
they were given, but for those without samples. -/
theorem append_reads_back {cfg : WalConfig} {g g' : Inner} {rec : WalRecord}
    {lsn : Nat} (hids : rec.IdsFit)
    (hcanon : ∀ e ∈ rec.series, e.labels.Canonical)
    (hok : appendWith cfg g rec = (.ok lsn, g')) (hne : rec.isEmpty = false)
    (rest : Bytes) (sizes : Nat → Nat) :
    ∃ bytes payload r, g'.buf = g.buf ++ bytes
      ∧ readRecord ⟨bytes ++ rest, sizes⟩ = (.ok (some (.write, payload)), r)
      ∧ r.left = rest
      ∧ decode .write payload
        = .ok ⟨rec.series, rec.samples.filter (·.samples ≠ [])⟩ := by
  rcases appendWith_cases cfg g rec with
    ⟨hempty, -⟩ | ⟨-, e, herr⟩ | ⟨-, hlen, -, heq⟩
  · rw [hne] at hempty
    cases hempty
  · rw [herr] at hok
    cases hok
  · rw [heq] at hok
    cases hok
    have hnext := readRecord_eq ⟨recordBytes rec ++ rest, sizes⟩
    rw [(recordBytes_isFrame hlen).2 rest] at hnext
    obtain ⟨hfound, hleft⟩ := hnext
    refine ⟨recordBytes rec, payloadBytes rec,
      (readRecord ⟨recordBytes rec ++ rest, sizes⟩).2, rfl,
      Prod.ext hfound rfl, hleft, ?_⟩
    have hseries : rec.logged.series = rec.series := by
      refine (List.map_congr_left fun e he => ?_).trans (List.map_id _)
      rw [LabelSet.fromLabels_canonical (hcanon e he)]
      rfl
    have hlogged : rec.logged
        = ⟨rec.series, rec.samples.filter (·.samples ≠ [])⟩ :=
      congrArg (WalRecord.mk · rec.nonempty) hseries
    rw [decode_encode hids hlen, hlogged]

/-- A series with two labels and one without any, a sample that is no
number, and an entry without samples. -/
theorem append_reads_back_once :
    let record : WalRecord := ⟨[⟨7, ⟨[⟨"a", "ö"⟩, ⟨"b", ""⟩]⟩⟩, ⟨8, ⟨[]⟩⟩],
      [⟨7, [⟨1, 0x7ff8000000000000⟩]⟩, ⟨8, []⟩]⟩
    ∃ lsn g' bytes payload r,
      appendWith ⟨1000, 10⟩ {} record = (.ok lsn, g')
      ∧ g'.buf = bytes
      ∧ readRecord ⟨bytes ++ [1, 2, 3], fun _ => 1⟩
        = (.ok (some (.write, payload)), r)
      ∧ r.left = [1, 2, 3]
      ∧ decode .write payload
        = .ok ⟨record.series, [⟨7, [⟨1, 0x7ff8000000000000⟩]⟩]⟩ := by
  intro record
  have hok : appendWith ⟨1000, 10⟩ {} record
      = (.ok 89, (appendWith ⟨1000, 10⟩ {} record).2) :=
    Prod.ext (by decide +kernel) rfl
  obtain ⟨bytes, payload, r, hbuf, hread, hleft, hdec⟩ :=
    append_reads_back (by decide) (by decide) hok (by decide) [1, 2, 3]
      (fun _ => 1)
  exact ⟨89, _, bytes, payload, r, hok, hbuf, hread, hleft, hdec⟩

end Tsdb.Wal
