/-
The HTTP interface (`api.rs`): what a handler asks of the database, and
what it makes of the answer.

# Requests

A body of `write_json` is a batch (`batchOf`). Its labels come as the
entries of a hash map, each name once and in any order, and a batch does
not depend on that order (`batchOf_congr`).

The parameters of `read` are a range and matchers (`wanted`); they come in
the order of a hash map, too, and the answer does not depend on it. The
loop over them keeps the bounds and the list of matchers, and may stop at
one that cannot be read. What it ends with is said without the order:
each bound is the one under its key, and the matchers are those of all
other keys (`wanted_eq_ok`, by induction on the parameters, with the bounds
found so far); a parameter that cannot be read is a bound
(`wanted_eq_error`). The label sets that satisfy the matchers are those
the parameters select (`Selects`).

# Replies

Results are a JSON value (`toMatrix`), an error is a text. An object is a
map of the library that keeps its keys in order, so it is built by
insertion and read off as its fields (`Value.collect_ascending`).

The framework reads the request and writes the reply: what it has to say
about a body or a query string that it cannot read is not here, and neither
is the text of a JSON value. An `f64` is its bits; how one is written is a
parameter (`Texts`), as are the texts of errors from outside.
-/
import Tsdb.Db.State
import Tsdb.Labels
import Tsdb.Lib.Text

namespace Tsdb

open Lib (Ascending HashMap)
open Wal (CodecError Corruption WalError)

-- ================================================================ the texts

/-- Texts that are not written here: of an I/O error, of one of
`serde_json`, of a path, and of an `f64`. -/
structure Texts where
  io : String
  serialization : String
  path : DataName → String
  value : UInt64 → String

def Wal.CodecError.text : CodecError → String
  | .unexpectedEof => "unexpected end of input"
  | .badUtf8 => "invalid utf-8 in label"
  | .trailingBytes => "trailing bytes after record"

def Wal.Corruption.text : Corruption → String
  | .truncated => "record cut short"
  | .invalidKind kind => "invalid record kind: " ++ toString kind.toNat
  | .invalidLength len =>
      "record length exceeds maximum: " ++ toString len.toNat
  | .checksumMismatch => "checksum mismatch"
  | .invalidPayload e => "invalid record payload: " ++ e.text

def Wal.WalError.text (texts : Texts) : WalError → String
  | .io => texts.io
  | .recordTooLarge bytes =>
      "record too large: " ++ toString bytes ++ " bytes"
  | .corrupt segmentId offset reason =>
      "corrupt record in segment " ++ toString segmentId ++ " at offset "
        ++ toString offset ++ ": " ++ reason.text
  | .closed => "WAL is closed"

def StorageError.text (texts : Texts) : StorageError → String
  | .io => texts.io
  | .corruptSegment file => "Corrupt segment: " ++ texts.path file
  | .numberOverflow => "Corrupt segment: segment number overflow"
  | .serialization => texts.serialization

def DbError.text (texts : Texts) : DbError → String
  | .storage e => e.text texts
  | .invalidTimeRange start end_ =>
      "Invalid time range: start (" ++ toString start.toNat
        ++ ") must not exceed end (" ++ toString end_.toNat ++ ")"
  | .storageFailed =>
      "database stopped after a storage failure; restart required"
  | .wal e => e.text texts

namespace Api

-- ================================================================== replies

inductive StatusCode
  | ok
  | noContent
  | badRequest
  | internalServerError
deriving DecidableEq, Repr

/-- `serde_json::Value`, with the numbers of an answer; an object has its
keys in order. -/
inductive Value
  | number (bits : UInt64)
  | string (s : String)
  | array (items : List Value)
  | object (fields : List (String × Value))

inductive Body
  | empty
  | text (s : String)
  | json (value : Value)

structure Reply where
  status : StatusCode
  body : Body

/-- `Map::insert`. -/
def Value.insert (key : String) (value : Value) :
    List (String × Value) → List (String × Value)
  | [] => [(key, value)]
  | e :: fields =>
      if key < e.1 then (key, value) :: e :: fields
      else if key = e.1 then (key, value) :: fields
      else e :: insert key value fields

/-- An object from its fields. -/
def Value.collect (fields : List (String × Value)) : Value :=
  .object (fields.foldl (fun map e => insert e.1 e.2 map) [])

/-- What comes behind every key goes to the end. -/
theorem Value.insert_last {key : String} {value : Value}
    {fields : List (String × Value)} (h : ∀ e ∈ fields, e.1 < key) :
    insert key value fields = fields ++ [(key, value)] := by
  induction fields with
  | nil => rfl
  | cons e fields ih =>
      obtain ⟨he, hfields⟩ := List.forall_mem_cons.mp h
      rw [insert, if_neg (lt_asymm he), if_neg (ne_of_gt he), ih hfields]
      rfl

/-- Fields in order stay as they are. -/
theorem Value.collect_ascending {fields : List (String × Value)}
    (h : Ascending Prod.fst fields) : collect fields = .object fields := by
  suffices hfold : fields.foldl (fun map e => insert e.1 e.2 map) [] = fields
    from congrArg Value.object hfold
  induction fields using List.reverseRecOn with
  | nil => rfl
  | append_singleton fields e ih =>
      obtain ⟨hfields, -, hlast⟩ := List.pairwise_append.mp h
      rw [List.foldl_concat, ih hfields]
      exact insert_last fun e' he' => hlast e' he' e List.mem_cons_self

theorem Value.collect_swap {key key' : String} (h : key' < key)
    (value value' : Value) :
    collect [(key, value), (key', value')]
      = .object [(key', value'), (key, value)] := by
  show object (if key' < key then _ else _) = _
  rw [if_pos h]

-- ============================================================== `write_json`

structure SampleDto where
  t : UInt64
  v : UInt64
deriving DecidableEq, Repr

structure WriteSeries where
  labels : HashMap String String
  samples : List SampleDto

/-- The batch of `write_json`. -/
def batchOf (body : List WriteSeries) : WriteBatch where
  series := body.map fun s =>
    (.fromLabels (s.labels.toPairs.map fun (n, v) => ⟨n, v⟩),
      s.samples.map fun d => ⟨d.t, d.v⟩)
  canonical e he := by
    obtain ⟨s, -, rfl⟩ := List.mem_map.mp he
    exact LabelSet.canonical_fromLabels _

/-- The reply to a write that has been waited for. -/
def written : Reply := ⟨.noContent, .empty⟩

/-- The reply to a write that has failed. -/
def writeError (texts : Texts) (e : DbError) : Reply :=
  ⟨.internalServerError, .text (e.text texts)⟩

/-- The labels of a series are its map. -/
theorem get_labels (labels : HashMap String String) (name : String) :
    (LabelSet.fromLabels
      (labels.toPairs.map fun (n, v) => (⟨n, v⟩ : Label))).get name
        = labels.lookup name := by
  rw [LabelSet.get_fromLabels, LabelSet.lastValue]
  have hunder : ∀ l ∈ (labels.toPairs.map fun (n, v) =>
      (⟨n, v⟩ : Label)).filter (·.name = name),
      labels.lookup name = some l.value := by
    intro l hl
    obtain ⟨hin, hname⟩ := List.mem_filter.mp hl
    obtain ⟨⟨n, v⟩, hpair, rfl⟩ := List.mem_map.mp hin
    rw [← of_decide_eq_true hname]
    exact HashMap.mem_toPairs.mp hpair
  cases hlast : ((labels.toPairs.map fun (n, v) => (⟨n, v⟩ : Label)).filter
      (·.name = name)).getLast? with
  | some l => exact (hunder l (List.mem_of_getLast? hlast)).symm
  | none =>
      rw [List.getLast?_eq_none_iff, List.filter_eq_nil_iff] at hlast
      cases hlookup : labels.lookup name with
      | none => rfl
      | some v =>
          have hpair := HashMap.mem_toPairs.mpr hlookup
          exact absurd (decide_eq_true rfl)
            (hlast ⟨name, v⟩ (List.mem_map.mpr ⟨_, hpair, rfl⟩))

/-- So a batch does not depend on the order of the maps. -/
theorem batchOf_congr {body body' : List WriteSeries}
    (h : List.Forall₂ (fun s s' => (∀ name,
      s.labels.lookup name = s'.labels.lookup name)
        ∧ s.samples = s'.samples) body body') :
    batchOf body = batchOf body' := by
  have hseries : (batchOf body).series = (batchOf body').series := by
    induction h with
    | nil => rfl
    | @cons s s' _ _ hs _ ih =>
        obtain ⟨hlabels, hsamples⟩ := hs
        refine List.cons_eq_cons.mpr ⟨Prod.ext ?_ ?_, ih⟩
        · apply LabelSet.Canonical.ext
          · exact LabelSet.canonical_fromLabels _
          · exact LabelSet.canonical_fromLabels _
          · intro name
            exact (get_labels _ _).trans
              ((hlabels name).trans (get_labels _ _).symm)
        · exact congrArg (List.map fun d => (⟨d.t, d.v⟩ : Sample)) hsamples
  generalize batchOf body = batch at hseries
  generalize batchOf body' = batch' at hseries
  obtain ⟨series, _⟩ := batch
  obtain ⟨series', _⟩ := batch'
  obtain rfl : series = series' := hseries
  rfl

-- =================================================================== `read`

/-- `str::parse` for a `u64`. -/
def parseU64 (v : String) : Option UInt64 :=
  (Lib.parseUnsigned (2 ^ 64) v.toList).map UInt64.ofNat

/-- The locals of `read`. -/
structure Wanted where
  start : UInt64 := 0
  end_ : UInt64 := 18446744073709551615
  matchers : List Matcher := []
deriving DecidableEq

/-- The loop body over the parameters. -/
def Wanted.param (w : Wanted) (param : String × String) :
    Except Reply Wanted :=
  let (k, v) := param
  if k = "start" then
    match parseU64 v with
    | some start => .ok { w with start }
    | none => .error ⟨.badRequest,
        .text "start must be an unsigned integer in milliseconds"⟩
  else if k = "end" then
    match parseU64 v with
    | some end_ => .ok { w with end_ }
    | none => .error ⟨.badRequest,
        .text "end must be an unsigned integer in milliseconds"⟩
  else if k = "name" then
    .ok { w with matchers := w.matchers ++ [⟨"__name__", v, .equal⟩] }
  else .ok { w with matchers := w.matchers ++ [⟨k, v, .equal⟩] }

/-- What `read` is asked for. -/
def wanted (params : HashMap String String) : Except Reply Wanted :=
  params.toPairs.foldlM Wanted.param {}

/-- What stands under a key: a bound, the one of `default` without it. -/
def boundIn (params : List (String × String)) (key : String)
    (default : UInt64) : Option UInt64 :=
  match params.find? (·.1 = key) with
  | some (_, v) => parseU64 v
  | none => some default

/-- What any other parameter asks for. -/
def matcherOf (param : String × String) : Option Matcher :=
  if param.1 = "start" ∨ param.1 = "end" then none
  else some ⟨if param.1 = "name" then "__name__" else param.1, param.2, .equal⟩

private theorem boundIn_cons {param : String × String}
    {params : List (String × String)} {key : String} {default : UInt64} :
    boundIn (param :: params) key default
      = if param.1 = key then parseU64 param.2
        else boundIn params key default := by
  unfold boundIn
  by_cases hkey : param.1 = key
  · rw [List.find?_cons_of_pos (by simpa using hkey), if_pos hkey]
  · rw [List.find?_cons_of_neg (by simpa using hkey), if_neg hkey]

private theorem boundIn_none {params : List (String × String)} {key : String}
    (h : key ∉ params.map Prod.fst) (default : UInt64) :
    boundIn params key default = some default := by
  unfold boundIn
  rw [List.find?_eq_none.mpr]
  intro param hin hkey
  exact h (of_decide_eq_true hkey ▸ List.mem_map_of_mem hin)

/-- The loop reads each bound once, and the matchers in order. No parameter
comes twice, so what is read for a bound is not read over by a later one:
behind the parameter of a bound there is none of that name. -/
private theorem foldlM_eq_ok {params : List (String × String)}
    (hnd : (params.map Prod.fst).Nodup) {w w' : Wanted} :
    params.foldlM Wanted.param w = .ok w'
      ↔ boundIn params "start" w.start = some w'.start
        ∧ boundIn params "end" w.end_ = some w'.end_
        ∧ w'.matchers = w.matchers ++ params.filterMap matcherOf := by
  induction params generalizing w with
  | nil =>
      obtain ⟨start, end_, matchers⟩ := w
      obtain ⟨start', end', matchers'⟩ := w'
      simp [boundIn, pure, Except.pure, eq_comm]
  | cons param params ih =>
      obtain ⟨k, v⟩ := param
      obtain ⟨hnot, hrest⟩ := List.nodup_cons.mp hnd
      rw [List.foldlM_cons, boundIn_cons, boundIn_cons, List.filterMap_cons]
      simp only [Wanted.param, matcherOf]
      by_cases hstart : k = "start"
      · subst hstart
        rw [if_pos rfl, if_pos rfl, if_neg (by decide), if_pos (.inl rfl)]
        cases hv : parseU64 v with
        | none => simp [bind, Except.bind]
        | some start =>
            show params.foldlM Wanted.param { w with start } = _ ↔ _
            rw [ih hrest, boundIn_none hnot]
      · rw [if_neg hstart, if_neg hstart]
        by_cases hend : k = "end"
        · subst hend
          rw [if_pos rfl, if_pos rfl, if_pos (.inr rfl)]
          cases hv : parseU64 v with
          | none => simp [bind, Except.bind]
          | some end_ =>
              show params.foldlM Wanted.param { w with end_ } = _ ↔ _
              rw [ih hrest, boundIn_none hnot]
        · rw [if_neg hend, if_neg hend, if_neg (not_or.mpr ⟨hstart, hend⟩)]
          by_cases hname : k = "name"
          · rw [if_pos hname, if_pos hname]
            show params.foldlM Wanted.param _ = _ ↔ _
            rw [ih hrest, List.append_assoc]
            rfl
          · rw [if_neg hname, if_neg hname]
            show params.foldlM Wanted.param _ = _ ↔ _
            rw [ih hrest, List.append_assoc]
            rfl

/-- An error names a bound that cannot be read: the first parameter that
fails is one of the two bounds, and what is in front of it has left the
other as it was. -/
private theorem foldlM_eq_error {params : List (String × String)}
    (hnd : (params.map Prod.fst).Nodup) {w : Wanted} {reply : Reply}
    (h : params.foldlM Wanted.param w = .error reply) :
    (boundIn params "start" w.start = none ∧ reply = ⟨.badRequest,
      .text "start must be an unsigned integer in milliseconds"⟩)
    ∨ (boundIn params "end" w.end_ = none ∧ reply = ⟨.badRequest,
      .text "end must be an unsigned integer in milliseconds"⟩) := by
  induction params generalizing w with
  | nil => cases h
  | cons param params ih =>
      obtain ⟨k, v⟩ := param
      obtain ⟨hnot, hrest⟩ := List.nodup_cons.mp hnd
      rw [List.foldlM_cons] at h
      simp only [Wanted.param] at h
      rw [boundIn_cons, boundIn_cons]
      by_cases hstart : k = "start"
      · subst hstart
        rw [if_pos rfl] at h ⊢
        rw [if_neg (by simp)]
        cases hv : parseU64 v with
        | none =>
            rw [hv] at h
            cases h
            exact .inl ⟨rfl, rfl⟩
        | some start =>
            rw [hv] at h
            rcases ih hrest (w := { w with start }) h with ⟨hnone, -⟩ | hbad
            · rw [boundIn_none hnot] at hnone
              cases hnone
            · exact .inr hbad
      · rw [if_neg hstart] at h ⊢
        by_cases hend : k = "end"
        · subst hend
          rw [if_pos rfl] at h ⊢
          cases hv : parseU64 v with
          | none =>
              rw [hv] at h
              cases h
              exact .inr ⟨rfl, rfl⟩
          | some end_ =>
              rw [hv] at h
              rcases ih hrest (w := { w with end_ }) h with hbad | ⟨hnone, -⟩
              · exact .inl hbad
              · rw [boundIn_none hnot] at hnone
                cases hnone
        · rw [if_neg hend] at h ⊢
          have hmore : ∃ m, params.foldlM Wanted.param
              { w with matchers := w.matchers ++ [m] } = .error reply := by
            split at h
            · exact ⟨_, h⟩
            · exact ⟨_, h⟩
          obtain ⟨m, hmore⟩ := hmore
          have hbad := ih hrest hmore
          exact hbad

/-- The bound under a key of the parameters. -/
def bound (params : HashMap String String) (key : String)
    (default : UInt64) : Option UInt64 :=
  match params.lookup key with
  | some v => parseU64 v
  | none => some default

private theorem bound_eq (params : HashMap String String) (key : String)
    (default : UInt64) :
    bound params key default = boundIn params.toPairs key default := by
  unfold bound boundIn
  rw [HashMap.lookup_eq_find?]
  cases params.toPairs.find? (·.1 = key) with
  | none => rfl
  | some e => rfl

theorem wanted_eq_ok {params : HashMap String String} {w : Wanted} :
    wanted params = .ok w
      ↔ bound params "start" 0 = some w.start
        ∧ bound params "end" 18446744073709551615 = some w.end_
        ∧ w.matchers = params.toPairs.filterMap matcherOf := by
  rw [bound_eq, bound_eq]
  exact foldlM_eq_ok (HashMap.nodup_toPairs_fst params)

theorem wanted_eq_error {params : HashMap String String} {reply : Reply}
    (h : wanted params = .error reply) :
    (bound params "start" 0 = none ∧ reply = ⟨.badRequest,
      .text "start must be an unsigned integer in milliseconds"⟩)
    ∨ (bound params "end" 18446744073709551615 = none
      ∧ reply = ⟨.badRequest,
        .text "end must be an unsigned integer in milliseconds"⟩) := by
  rw [bound_eq, bound_eq]
  exact foldlM_eq_error (HashMap.nodup_toPairs_fst params) h

/-- Does a label set have all the parameters ask for? -/
def Selects (params : HashMap String String) (ls : LabelSet) : Prop :=
  ∀ k v, params.lookup k = some v → k ≠ "start" → k ≠ "end" →
    ls.get (if k = "name" then "__name__" else k) = some v

theorem satisfiesAll_wanted {params : HashMap String String} {ls : LabelSet} :
    satisfiesAll (params.toPairs.filterMap matcherOf) ls = true
      ↔ Selects params ls := by
  unfold satisfiesAll Selects
  rw [List.all_eq_true]
  constructor
  · intro h k v hkv hstart hend
    have hin : (⟨if k = "name" then "__name__" else k, v, .equal⟩ : Matcher)
        ∈ params.toPairs.filterMap matcherOf := by
      refine List.mem_filterMap.mpr
        ⟨(k, v), HashMap.mem_toPairs.mpr hkv, ?_⟩
      rw [matcherOf, if_neg (by simp [hstart, hend])]
    exact eq_of_beq (h _ hin)
  · intro h m hm
    obtain ⟨⟨k, v⟩, hkv, heq⟩ := List.mem_filterMap.mp hm
    unfold matcherOf at heq
    split at heq
    · cases heq
    · rename_i hkey
      cases heq
      rw [not_or] at hkey
      exact beq_iff_eq.mpr (h k v (HashMap.mem_toPairs.mp hkv) hkey.1 hkey.2)

instance (params : HashMap String String) (ls : LabelSet) :
    Decidable (Selects params ls) :=
  decidable_of_iff _ satisfiesAll_wanted

/-- `to_matrix`. -/
def toMatrix (texts : Texts) (results : List SeriesResult) : Value :=
  let result := results.map fun s =>
    let metric := Value.collect
      (s.labels.labels.map fun l => (l.name, .string l.value))
    let values := s.samples.map fun smp =>
      Value.array [.number (smp.timestamp.toFloat / 1000.0).toBits,
        .string (texts.value smp.value)]
    Value.collect [("metric", metric), ("values", .array values)]
  .collect [("status", .string "success"),
    ("data", .collect [("resultType", .string "matrix"),
      ("result", .array result)])]

/-- The entry of a series: its labels in order, and for each sample the
time in seconds and the value. -/
def entryOf (texts : Texts) (r : SeriesResult) : Value :=
  .object [("metric", .object
      (r.labels.labels.map fun l => (l.name, .string l.value))),
    ("values", .array (r.samples.map fun smp =>
      .array [.number (smp.timestamp.toFloat / 1000.0).toBits,
        .string (texts.value smp.value)]))]

theorem toMatrix_eq {texts : Texts} {results : List SeriesResult}
    (h : ∀ r ∈ results, r.labels.Canonical) :
    toMatrix texts results = .object [("data", .object [
        ("result", .array (results.map (entryOf texts))),
        ("resultType", .string "matrix")]),
      ("status", .string "success")] := by
  unfold toMatrix
  rw [Value.collect_swap (by decide), Value.collect_swap (by decide)]
  have hentries : ∀ r ∈ results, Value.collect
      [("metric", Value.collect
          (r.labels.labels.map fun l => (l.name, .string l.value))),
        ("values", .array (r.samples.map fun smp =>
          .array [.number (smp.timestamp.toFloat / 1000.0).toBits,
            .string (texts.value smp.value)]))] = entryOf texts r := by
    intro r hr
    have hlabels : Ascending Prod.fst
        (r.labels.labels.map fun l => (l.name, Value.string l.value)) :=
      List.pairwise_map.mpr (h r hr)
    rw [Value.collect_ascending hlabels, Value.collect_ascending]
    · rfl
    · exact List.pairwise_pair.mpr (by decide : "metric" < "values")
  rw [List.map_congr_left hentries]

/-- The reply to a query. -/
def answer (texts : Texts) : Except DbError (List SeriesResult) → Reply
  | .ok results => ⟨.ok, .json (toMatrix texts results)⟩
  | .error e =>
      let status := match e with
        | .invalidTimeRange _ _ => .badRequest
        | _ => .internalServerError
      ⟨status, .text (e.text texts)⟩

end Api

end Tsdb
