/-
The server (`api.rs`, `main.rs`): the requests of its clients over the
database, in a process that may stop at any point.

# Requests

A request to write is a handler that has a write made, waits for its LSN
and replies. The write is a step of the database up to its flush; until the
flush has returned the handler has the lock (`Post.writing`). Then it waits
(`waiting`), where it can be dropped with its connection, and replies. What
the log has refused, or a database that has failed, is `refused`. A process
that ends leaves its handlers behind (`lost`). Reading is no step
(`System.read`): a reply is a function of where the system stands.

The framework lets handlers come to an end before `serve` returns, so the
database is dropped when no request is under way.

# Replies

A reply to a read is computed from the answer of the database, and the
answer is that of a database in memory after the writes that stand
(`System.Tells.query`). So it can be said without the database: of each
label set that the parameters select, in the order of its first write, the
samples kept of it (`Api.entries`, `Api.Tells`). `read_replies` says so of
every run.

# Promises

A client that has been told its samples are written (`Api.written`) will
find them: with `Durability::Written` in every reply to come, whatever
happens to the process (`posts_durable`); otherwise if the process comes to
its end in order (`shutdown_keeps`). Both rest on one account of a run,
`Server.Tells`: which requests the writes that stand belong to. It is
carried by the tale of the system, step by step:

- a request to write adds one to the end, if the log accepts it;
- a reply with `Durability::Written` is a wait that has returned, so its
  write is safe from there on (`Tale.safe_waited`);
- a crash takes requests from the end, but none that is safe
  (`Tells.crash`), and those under way are lost;
- the end of the process makes every write safe.

Whatever comes later, the requests that were safe stay in front
(`Carries`). The two theorems read this off for the requests they are
about.
-/
import Tsdb.Api
import Tsdb.Db.Emptied
import Tsdb.Db.Restart
import Tsdb.Wal.Threads

namespace Tsdb

open Lib (HashMap exec)
open Wal (Durability WalConfig WalError)

variable {texts : Texts} {json : Json} {cfg : WalConfig}
  {durability : Durability}

-- ============================================================ the requests

/-- What has become of a request to write, and the LSN of its write. -/
inductive Post
  | writing (batch : WriteBatch) (lsn : Nat)
  | waiting (batch : WriteBatch) (lsn : Nat)
  | answered (batch : WriteBatch) (reply : Api.Reply)
  | refused (batch : WriteBatch) (reply : Api.Reply)
  | lost (batch : WriteBatch)

namespace Post

def batch : Post → WriteBatch
  | .writing batch _ => batch
  | .waiting batch _ => batch
  | .answered batch _ => batch
  | .refused batch _ => batch
  | .lost batch => batch

def isRefused : Post → Bool
  | .refused _ _ => true
  | _ => false

/-- The LSN of a request that is under way. -/
def underWay : Post → Option Nat
  | .writing _ lsn => some lsn
  | .waiting _ lsn => some lsn
  | _ => none

end Post

/-- Requests are numbered as they come. -/
structure Server where
  system : System := {}
  posts : List Post := []

/-- `event` is any step of the system but a write. -/
inductive Server.Turn
  | event (e : Event)
  | post (body : List Api.WriteSeries) (result : Except WalError Nat)
  | refuse (body : List Api.WriteSeries)
  | reply (id : Nat)
  | cancel (id : Nat)

/-- The error of the call a flush is in. -/
def Db.error (db : Db) : Option DbError :=
  match db.pc with
  | .flush _ _ job =>
      match job.stage with
      | .toVec => some (.storage .serialization)
      | _ => some (.storage .io)
  | .remove _ _ => some (.wal .io)
  | _ => none

/-- A step that ends a flush with an error. -/
def System.error (s : System) : Event → Option DbError
  | .fault =>
      match s.phase with
      | .running db => db.error
      | _ => none
  | _ => none

/-- A handler behind a step of the system: `error` is what a flush has
ended with. -/
def Post.follow (texts : Texts) (error : Option DbError) (phase : Phase)
    (post : Post) : Post :=
  match post, phase with
  | .writing batch lsn, .running db =>
      if db.pc = .idle then
        match error with
        | none => .waiting batch lsn
        | some e => .answered batch (Api.writeError texts e)
      else .writing batch lsn
  | .writing batch _, _ => .lost batch
  | .waiting batch lsn, .running _ => .waiting batch lsn
  | .waiting batch _, _ => .lost batch
  | post, _ => post

namespace Server

/-- `write_json`, up to where it has to wait. -/
def post (texts : Texts) (json : Json) (cfg : WalConfig)
    (body : List Api.WriteSeries) (result : Except WalError Nat)
    (s : Server) : Option Server :=
  let batch := Api.batchOf body
  (System.step json cfg (.write batch result) s.system).map fun system =>
    let post :=
      match result with
      | .error e => .refused batch (Api.writeError texts (.wal e))
      | .ok lsn => (Post.writing batch lsn).follow texts none system.phase
    { system, posts := s.posts ++ [post] }

/-- `write_json` of a database that has failed. -/
def refuse (texts : Texts) (body : List Api.WriteSeries) (s : Server) :
    Option Server :=
  match s.system.phase with
  | .running db =>
      if db.pc = .idle ∧ db.state.failed = true then
        some { s with posts := s.posts ++ [.refused (Api.batchOf body)
          (Api.writeError texts .storageFailed)] }
      else none
  | _ => none

/-- `Db::wait`, and the reply behind it. -/
def reply (json : Json) (cfg : WalConfig) (durability : Durability)
    (id : Nat) (s : Server) : Option Server :=
  match s.posts[id]? with
  | some (.waiting batch lsn) =>
      let posts := s.posts.set id (.answered batch Api.written)
      match durability with
      | .none => some { s with posts }
      | .written =>
          (System.step json cfg (.wal (.waitReturn lsn)) s.system).map
            fun system => { system, posts }
  | _ => none

/-- A connection is closed. -/
def cancel (id : Nat) (s : Server) : Option Server :=
  match s.posts[id]? with
  | some (.waiting batch _) =>
      some { s with posts := s.posts.set id (.lost batch) }
  | _ => none

/-- Is no request under way? -/
def quiet (s : Server) : Bool := s.posts.all (·.underWay.isNone)

def event (texts : Texts) (json : Json) (cfg : WalConfig) (e : Event)
    (s : Server) : Option Server :=
  match e with
  | .write _ _ => none
  | .drop =>
      if s.quiet then
        (System.step json cfg .drop s.system).map fun system =>
          { s with system }
      else none
  | e =>
      (System.step json cfg e s.system).map fun system =>
        { system
          posts := s.posts.map
            (·.follow texts (s.system.error e) system.phase) }

def step (texts : Texts) (json : Json) (cfg : WalConfig)
    (durability : Durability) : Turn → Server → Option Server
  | .event e, s => s.event texts json cfg e
  | .post body result, s => s.post texts json cfg body result
  | .refuse body, s => s.refuse texts body
  | .reply id, s => s.reply json cfg durability id
  | .cancel id, s => s.cancel id

end Server

/-- `read`; it waits while an operation has the lock. -/
def System.read (texts : Texts) (json : Json)
    (params : HashMap String String) (s : System) : Option Api.Reply :=
  match s.phase with
  | .running _ =>
      match Api.wanted params with
      | .error reply => some reply
      | .ok w =>
          (s.query json w.matchers ⟨w.start, w.end_⟩).map (Api.answer texts)
  | _ => none

-- ============================================================== the replies

namespace Api

/-- The entries of a reply: of each label set in the order of its first
write, if the parameters select it, the samples kept of what was written to
it, in the range. -/
def entries (writes : List WriteBatch) (params : HashMap String String)
    (range : TimeRange) : List SeriesResult :=
  ((View.writeAll {} writes).sets.filter fun ls =>
      decide (Selects params ls)).map fun ls =>
    ⟨ls, (Lib.extend Sample.timestamp [] (Tsdb.written writes ls)).filter
      (·.inTimerange range)⟩

/-- The parameters have a range, and it is not reversed. -/
def Ranged (params : HashMap String String) (range : TimeRange) : Prop :=
  bound params "start" 0 = some range.start
    ∧ bound params "end" 18446744073709551615 = some range.end_
    ∧ range.start ≤ range.end_

/-- What a reply to `read` says, after these writes. Of the parameters it
depends on what they say and not on their order, as long as there is a
range. -/
structure Tells (texts : Texts) (writes : List WriteBatch) (failed : Bool)
    (params : HashMap String String) (reply : Reply) : Prop where
  bad : reply.status = .badRequest ↔ ¬ ∃ range, Ranged params range
  down : failed = true → ∀ range, Ranged params range →
    reply = ⟨.internalServerError,
      .text "database stopped after a storage failure; restart required"⟩
  found : failed = false → ∀ range, Ranged params range →
    reply = ⟨.ok, .json (.object [("data", .object [
        ("result", .array ((entries writes params range).map (entryOf texts))),
        ("resultType", .string "matrix")]),
      ("status", .string "success")])⟩

end Api

/-- What a database in memory answers. -/
theorem View.query_wanted {writes : List WriteBatch}
    {params : HashMap String String} (range : TimeRange) :
    (View.writeAll {} writes).query
        (params.toPairs.filterMap Api.matcherOf) range
      = Api.entries writes params range := by
  unfold View.query Api.entries
  have hselect : ∀ ls, satisfiesAll (params.toPairs.filterMap Api.matcherOf) ls
      = decide (Api.Selects params ls) := fun ls =>
    Bool.eq_iff_iff.mpr (Api.satisfiesAll_wanted.trans decide_eq_true_iff.symm)
  rw [List.filter_congr fun ls _ => hselect ls]
  refine List.map_congr_left fun ls _ => ?_
  rw [View.hist_writeAll]

theorem Api.canonical_entries {writes : List WriteBatch}
    {params : HashMap String String} {range : TimeRange} :
    ∀ r ∈ Api.entries writes params range, r.labels.Canonical := by
  intro r hr
  obtain ⟨ls, hls, rfl⟩ := List.mem_map.mp hr
  exact View.canonical_writeAll writes ls (List.mem_of_mem_filter hls)

/-- A reply of a database in which no write has been refused. The cases are
those of the handler: parameters that cannot be read, a database that has
failed, a range that ends before it starts, and an answer, whose entries are
those of the writes that stand. -/
theorem System.Tells.read {s : System} {t : Tale} (h : s.Tells json t)
    (horder : t.orderly = true) {db : Db} (hphase : s.phase = .running db)
    {params : HashMap String String} {reply : Api.Reply}
    (hread : s.read texts json params = some reply) :
    Api.Tells texts t.writes db.state.failed params reply := by
  unfold System.read at hread
  rw [hphase] at hread
  cases hwanted : Api.wanted params with
  | error bad =>
      simp only [hwanted, Option.some.injEq] at hread
      subst hread
      have hnone : ¬ ∃ range, Api.Ranged params range := by
        rintro ⟨range, hstart, hend, -⟩
        rcases Api.wanted_eq_error hwanted with ⟨hnone, -⟩ | ⟨hnone, -⟩
        · rw [hnone] at hstart
          cases hstart
        · rw [hnone] at hend
          cases hend
      have hstatus : bad.status = .badRequest := by
        rcases Api.wanted_eq_error hwanted with ⟨-, rfl⟩ | ⟨-, rfl⟩
        · rfl
        · rfl
      exact ⟨⟨fun _ => hnone, fun _ => hstatus⟩,
        fun _ range hrange => absurd ⟨range, hrange⟩ hnone,
        fun _ range hrange => absurd ⟨range, hrange⟩ hnone⟩
  | ok w =>
      obtain ⟨hstart, hend, hmatchers⟩ := Api.wanted_eq_ok.mp hwanted
      simp only [hwanted, Option.map_eq_some_iff] at hread
      obtain ⟨result, hquery, rfl⟩ := hread
      have hrange : ∀ range, Api.Ranged params range →
          range = ⟨w.start, w.end_⟩ ∧ w.start ≤ w.end_ := by
        rintro ⟨start, end_⟩ ⟨hstart', hend', hle⟩
        rw [hstart, Option.some.injEq] at hstart'
        rw [hend, Option.some.injEq] at hend'
        obtain rfl : w.start = start := hstart'
        obtain rfl : w.end_ = end_ := hend'
        exact ⟨rfl, hle⟩
      obtain ⟨hpc, hresult⟩ : db.pc = .idle
          ∧ db.state.query json s.data w.matchers ⟨w.start, w.end_⟩
            = result := by
        unfold System.query at hquery
        rw [hphase] at hquery
        simp only at hquery
        split at hquery
        · rename_i hpc
          exact ⟨hpc, Option.some.inj hquery⟩
        · cases hquery
      by_cases hle : w.start ≤ w.end_
      · have hsome : ∃ range, Api.Ranged params range :=
          ⟨⟨w.start, w.end_⟩, hstart, hend, hle⟩
        cases hfailed : db.state.failed with
        | true =>
            have hstopped : result = .error .storageFailed := by
              rw [← hresult]
              unfold DbState.query
              rw [if_neg (not_lt.mpr hle), hfailed]
              rfl
            subst hstopped
            exact ⟨⟨fun h => (by cases h), fun h => absurd hsome h⟩,
              fun _ _ _ => rfl, fun h => (by cases h)⟩
        | false =>
            have hranged : (⟨w.start, w.end_⟩ : TimeRange).start
                ≤ (⟨w.start, w.end_⟩ : TimeRange).end_ := hle
            have hanswer := h.query horder ⟨db, hphase, hpc, hfailed⟩
              w.matchers hranged
            rw [hquery, Option.some.injEq,
              DbState.query_in_memory _ _ _ _ hranged, hmatchers,
              View.query_wanted] at hanswer
            subst hanswer
            refine ⟨⟨fun h => (by cases h), fun h => absurd hsome h⟩,
              fun h => (by cases h), fun _ range hranged => ?_⟩
            obtain ⟨rfl, -⟩ := hrange range hranged
            show Api.Reply.mk _ (.json _) = _
            rw [Api.toMatrix_eq Api.canonical_entries]
      · have hnone : ¬ ∃ range, Api.Ranged params range :=
          fun ⟨range, hranged⟩ => hle (hrange range hranged).2
        have hreversed : result
            = .error (.invalidTimeRange w.start w.end_) := by
          rw [← hresult]
          unfold DbState.query
          rw [if_pos (not_le.mp hle)]
        subst hreversed
        exact ⟨⟨fun _ => hnone, fun _ => rfl⟩,
          fun _ range hranged => absurd ⟨range, hranged⟩ hnone,
          fun _ range hranged => absurd ⟨range, hranged⟩ hnone⟩

/-- Where no operation has the lock, every request to read has a reply. -/
theorem System.read_idle (texts : Texts) (json : Json)
    (params : HashMap String String) {s : System} {db : Db}
    (hphase : s.phase = .running db) (hpc : db.pc = .idle) :
    ∃ reply, s.read texts json params = some reply := by
  unfold System.read System.query
  rw [hphase]
  cases Api.wanted params with
  | error bad => exact ⟨bad, rfl⟩
  | ok w =>
      simp only [if_pos hpc]
      exact ⟨_, rfl⟩

/-- In every run in which the log refuses no write: a reply to `read` tells
of the writes that stand, as long as the parameters have a range and no
flush has failed; a range that cannot be read or is reversed is a bad
request in any case. Nothing else fails a read. -/
theorem read_replies (texts : Texts) (hjson : json.Lawful)
    {events : List Event} {s : System}
    (hrun : exec (System.step json cfg) events {} = some s)
    (hok : ∀ batch err, .write batch (.error err) ∉ events) :
    ∃ t, Tale.Of events t ∧ ∀ db, s.phase = .running db → ∀ params,
      (db.pc = .idle → ∃ reply, s.read texts json params = some reply)
      ∧ ∀ reply, s.read texts json params = some reply →
        Api.Tells texts t.writes db.state.failed params reply := by
  obtain ⟨t, hof, h⟩ := System.tells hjson hrun
  exact ⟨t, hof, fun db hphase params => ⟨System.read_idle texts json params
    hphase, fun reply hread => h.read (hof.orderly hok) hphase hread⟩⟩

/-- At the end of the session a client reads without parameters, and its
reply has the sample that was flushed, the one whose record is in a file,
and the one that is only in memory. What the reply is follows from the
theorem; that there is one, from the database being idle. -/
theorem read_replies_once :
    ∃ (texts : Texts) (s : System) (reply : Api.Reply),
      exec (System.step Json.sample ⟨100, 0⟩) (openEmpty 4 ++ session) {}
        = some s
      ∧ s.data.keys = [.segment 0]
      ∧ s.read texts Json.sample ∅ = some reply
      ∧ reply = ⟨.ok, .json (.object [("data", .object [
          ("result", .array (List.map (Api.entryOf texts)
            [⟨⟨[⟨"host", "a"⟩]⟩, [⟨5, 7⟩, ⟨8, 7⟩, ⟨9, 7⟩]⟩])),
          ("resultType", .string "matrix")]),
        ("status", .string "success")])⟩ := by
  let texts : Texts := ⟨"", "", fun _ => "", fun _ => "3.5e-323"⟩
  obtain ⟨s, db, hrun, hphase, hpc, hfailed, -, -, -, hkeys⟩ :=
    System.exec_session
  obtain ⟨t, hof, hreplies⟩ := read_replies texts Json.sample_lawful hrun
    (by simp [openEmpty, session, flushCall, flushUpToList])
  rw [Tale.of_iff (by simp [openEmpty, session, flushCall, flushUpToList])]
    at hof
  subst hof
  obtain ⟨hsome, htells⟩ := hreplies db hphase ∅
  obtain ⟨reply, hread⟩ := hsome hpc
  have hreply := htells reply hread
  rw [hfailed] at hreply
  have hranged : Api.Ranged ∅ ⟨0, 18446744073709551615⟩ :=
    ⟨rfl, rfl, by decide⟩
  have hentries : Api.entries [writeAt 5, writeAt 8, writeAt 9] ∅
      ⟨0, 18446744073709551615⟩
        = [⟨⟨[⟨"host", "a"⟩]⟩, [⟨5, 7⟩, ⟨8, 7⟩, ⟨9, 7⟩]⟩] := by
    decide +kernel
  refine ⟨texts, s, reply, hrun, hkeys, hread, ?_⟩
  rw [hreply.found rfl _ hranged, ← hentries]
  rfl

-- ============================================================ the handlers

namespace Post

variable {post : Post} {error : Option DbError} {phase : Phase} {lsn : Nat}

/-- What a step of the system does to a request under way: it goes on
waiting, it is answered with the error of the database, or it is lost with
the process. A request that has ended stays as it is. -/
theorem follow_cases (texts : Texts) (error : Option DbError)
    (phase : Phase) (post : Post) :
    post.follow texts error phase = post
    ∨ (∃ lsn, post.underWay = some lsn)
      ∧ ((∃ lsn db, phase = .running db ∧ post.underWay = some lsn
          ∧ post.follow texts error phase = .waiting post.batch lsn)
        ∨ (∃ e, post.follow texts error phase
            = .answered post.batch (Api.writeError texts e))
        ∨ post.follow texts error phase = .lost post.batch) := by
  cases post with
  | writing batch lsn =>
      cases phase with
      | running db =>
          simp only [follow]
          split
          · refine .inr ⟨⟨lsn, rfl⟩, ?_⟩
            cases error with
            | none => exact .inl ⟨lsn, db, rfl, rfl, rfl⟩
            | some e => exact .inr (.inl ⟨e, rfl⟩)
          · exact .inl rfl
      | down => exact .inr ⟨⟨lsn, rfl⟩, .inr (.inr rfl)⟩
      | opening => exact .inr ⟨⟨lsn, rfl⟩, .inr (.inr rfl)⟩
      | closing => exact .inr ⟨⟨lsn, rfl⟩, .inr (.inr rfl)⟩
  | waiting batch lsn =>
      cases phase with
      | running db => exact .inl rfl
      | down => exact .inr ⟨⟨lsn, rfl⟩, .inr (.inr rfl)⟩
      | opening => exact .inr ⟨⟨lsn, rfl⟩, .inr (.inr rfl)⟩
      | closing => exact .inr ⟨⟨lsn, rfl⟩, .inr (.inr rfl)⟩
  | answered batch reply => exact .inl rfl
  | refused batch reply => exact .inl rfl
  | lost batch => exact .inl rfl

@[simp] theorem batch_follow :
    (post.follow texts error phase).batch = post.batch := by
  rcases post.follow_cases texts error phase
    with h | ⟨-, ⟨_, _, -, -, h⟩ | ⟨_, h⟩ | h⟩
  · rw [h]
  · rw [h]
    rfl
  · rw [h]
    rfl
  · rw [h]
    rfl

@[simp] theorem isRefused_follow :
    (post.follow texts error phase).isRefused = post.isRefused := by
  have hnot : ∀ lsn, post.underWay = some lsn → post.isRefused = false := by
    intro lsn h
    cases post with
    | refused => cases h
    | _ => rfl
  rcases post.follow_cases texts error phase
    with h | ⟨⟨lsn, hlsn⟩, ⟨_, _, -, -, h⟩ | ⟨_, h⟩ | h⟩
  · rw [h]
  · rw [h, hnot lsn hlsn]
    rfl
  · rw [h, hnot lsn hlsn]
    rfl
  · rw [h, hnot lsn hlsn]
    rfl

/-- What is under way has been so, and the process runs. -/
theorem underWay_follow
    (h : (post.follow texts error phase).underWay = some lsn) :
    post.underWay = some lsn ∧ ∃ db, phase = .running db := by
  rcases post.follow_cases texts error phase
    with hsame | ⟨-, ⟨_, db, hphase, hlsn, hwait⟩ | ⟨_, hend⟩ | hend⟩
  · rw [hsame] at h
    refine ⟨h, ?_⟩
    cases phase with
    | running db => exact ⟨db, rfl⟩
    | _ =>
        exfalso
        cases post with
        | writing => cases hsame
        | waiting => cases hsame
        | _ => cases h
  · rw [hwait] at h
    exact ⟨hlsn.trans h, db, hphase⟩
  · rw [hend] at h
    cases h
  · rw [hend] at h
    cases h

/-- What has ended stays as it is. -/
theorem follow_ended (h : post.underWay = none) :
    post.follow texts error phase = post := by
  rcases post.follow_cases texts error phase with hsame | ⟨⟨lsn, hlsn⟩, -⟩
  · exact hsame
  · rw [h] at hlsn
    cases hlsn

/-- The database tells nobody that samples are written. -/
theorem written_follow {batch : WriteBatch}
    (h : post.follow texts error phase = .answered batch Api.written) :
    post = .answered batch Api.written := by
  rcases post.follow_cases texts error phase
    with hsame | ⟨-, ⟨_, _, -, -, hend⟩ | ⟨_, hend⟩ | hend⟩
  · exact hsame.symm.trans h
  · rw [hend] at h
    cases h
  · rw [hend] at h
    cases h
  · rw [hend] at h
    cases h

end Post

-- ================================================================= the tale

namespace Tale

variable {t : Tale} {e : Event}

/-- Only an accepted write and the end of the process change which writes
are whose. -/
theorem mine_next (hwrite : ∀ batch lsn, e ≠ .write batch (.ok lsn))
    (hclose : e ≠ .wal .closeReturn) :
    (t.next e).past = t.past ∧ (t.next e).mine = t.mine := by
  cases e with
  | wal a =>
      cases a with
      | closeReturn => exact absurd rfl hclose
      | _ => exact ⟨rfl, rfl⟩
  | write batch result =>
      cases result with
      | ok lsn => exact absurd rfl (hwrite batch lsn)
      | error err => exact ⟨rfl, rfl⟩
  | _ => exact ⟨rfl, rfl⟩

/-- What is safe stays safe. -/
theorem safe_le_next (h : t.safe ≤ t.writes.length) :
    t.safe ≤ (t.next e).safe := by
  cases e with
  | wal a =>
      cases a with
      | waitReturn lsn => exact Nat.le_max_left _ _
      | cutReturn => exact h
      | closeReturn => exact h
      | _ => exact Nat.le_refl _
  | write batch result => cases result <;> exact Nat.le_refl _
  | _ => exact Nat.le_refl _

end Tale

/-- No more writes are safe than stand. -/
theorem System.Tells.safe_le {s : System} {t : Tale} (h : s.Tells json t) :
    t.safe ≤ t.writes.length := by
  have hcrash : System.step json ⟨0, 0⟩ (.crash []) s
      = some { s with phase := .down } := by
    unfold System.step
    simp
  obtain ⟨k, hsafe, hk, -⟩ := h.crash hcrash
  exact Nat.le_trans hsafe hk

/-- The request `id` has had this batch written. -/
def Server.Wrote (posts : List Post) (id : Nat) (batch : WriteBatch) : Prop :=
  ∃ post, posts[id]? = some post ∧ post.batch = batch
    ∧ post.isRefused = false

/-- What is told of a server: `ids` are the requests whose writes stand, in
order; those from `first` on belong to the process. -/
structure Server.Tells (json : Json) (durability : Durability) (t : Tale)
    (ids : List Nat) (first : Nat) (s : Server) : Prop where
  told : s.system.Tells json t
  asc : ids.Pairwise (· < ·)
  wrote : List.Forall₂ (Server.Wrote s.posts) ids t.writes
  mine : ∀ (id : Nat) (post : Post) lsn, s.posts[id]? = some post →
    post.underWay = some lsn →
    ∃ front back, t.mine = front ++ (post.batch, lsn) :: back
      ∧ ids[t.past.length + front.length]? = some id
  running : ∀ (id : Nat) (post : Post) lsn, s.posts[id]? = some post →
    post.underWay = some lsn → ∃ db, s.system.phase = .running db
  kept : ∀ (id : Nat) batch,
    s.posts[id]? = some (.answered batch Api.written) →
    durability = .written ∨ first ≤ id →
    ∃ k, ids[k]? = some id ∧ (durability = .written → k < t.safe)

namespace Server

variable {t : Tale} {ids : List Nat} {first : Nat} {s s' : Server}
  {turn : Server.Turn} {turns : List Server.Turn}

theorem Wrote.mono {posts posts' : List Post}
    (h : ∀ (id : Nat) (post : Post), posts[id]? = some post → ∃ post' : Post,
      posts'[id]? = some post' ∧ post'.batch = post.batch
        ∧ post'.isRefused = post.isRefused) {id : Nat} {batch : WriteBatch}
    (hwrote : Wrote posts id batch) : Wrote posts' id batch := by
  obtain ⟨post, hpost, hbatch, hnot⟩ := hwrote
  obtain ⟨post', hpost', hbatch', hnot'⟩ := h id post hpost
  exact ⟨post', hpost', hbatch'.trans hbatch, hnot'.trans hnot⟩

theorem Tells.empty (json : Json) (durability : Durability) :
    Tells json durability {} [] 0 {} where
  told := .empty json
  asc := .nil
  wrote := .nil
  mine id post lsn h := by cases h
  running id post lsn h := by cases h
  kept id batch h := by cases h

/-- A step of the system, as the handlers see it. -/
theorem event_cases {e : Event}
    (h : s.event texts json cfg e = some s') :
    (∀ batch result, e ≠ .write batch result)
    ∧ System.step json cfg e s.system = some s'.system
    ∧ s'.posts = s.posts.map
      (·.follow texts (s.system.error e) s'.system.phase) := by
  unfold event at h
  split at h
  · cases h
  · split at h
    · rename_i hquiet
      obtain ⟨system, hstep, rfl⟩ := Option.map_eq_some_iff.mp h
      refine ⟨fun batch result => by simp, hstep, ?_⟩
      have hnone : ∀ post ∈ s.posts, post.underWay = none := by
        intro post hpost
        exact Option.isNone_iff_eq_none.mp
          (List.all_eq_true.mp hquiet post hpost)
      exact (List.map_id s.posts).symm.trans (List.map_congr_left
        fun post hpost => (Post.follow_ended (hnone post hpost)).symm)
    · cases h
  · rename_i hwrite hdrop
    obtain ⟨system, hstep, rfl⟩ := Option.map_eq_some_iff.mp h
    exact ⟨hwrite, hstep, rfl⟩

/-- What follows from the map over the handlers. -/
private theorem follow_getElem? {error : Option DbError} {phase : Phase}
    {posts : List Post} {id : Nat} {post : Post}
    (h : (posts.map (·.follow texts error phase))[id]? = some post) :
    ∃ post₀, posts[id]? = some post₀
      ∧ post = post₀.follow texts error phase := by
  rw [List.getElem?_map, Option.map_eq_some_iff] at h
  obtain ⟨post₀, hpost, rfl⟩ := h
  exact ⟨post₀, hpost, rfl⟩

private theorem wrote_follow {error : Option DbError} {phase : Phase}
    {posts : List Post} {id : Nat} {batch : WriteBatch}
    (h : Wrote posts id batch) :
    Wrote (posts.map (·.follow texts error phase)) id batch := by
  refine Wrote.mono (fun id post hpost =>
    ⟨post.follow texts error phase, ?_, Post.batch_follow,
      Post.isRefused_follow⟩) h
  rw [List.getElem?_map, hpost]
  rfl

/-- A step of the system that is no crash. It accepts no write, so the
writes and whose they are stay; the requests under way follow the database,
and those that have ended stay. -/
theorem Tells.event (hjson : json.Lawful)
    (h : s.Tells json durability t ids first) {e : Event}
    (he : ∀ removed, e ≠ .crash removed)
    (hs : s.event texts json cfg e = some s') :
    s'.Tells json durability (t.next e) ids first := by
  obtain ⟨hwrite, hstep, hposts⟩ := event_cases hs
  have hok : ∀ batch lsn, e ≠ .write batch (.ok lsn) :=
    fun batch lsn => hwrite batch _
  have htold := h.told.step hjson he hstep
  obtain ⟨system, posts⟩ := s'
  simp only at hposts
  subst hposts
  refine ⟨htold, h.asc, ?_, fun id post lsn hpost hlsn => ?_,
    fun id post lsn hpost hlsn => ?_, fun id batch hpost hfirst => ?_⟩
  · rw [Tale.writes_next hok]
    exact h.wrote.imp fun _ _ => wrote_follow
  · obtain ⟨post₀, hpost₀, rfl⟩ := follow_getElem? hpost
    obtain ⟨hlsn₀, db, hphase⟩ := Post.underWay_follow hlsn
    -- the process has not come to its end
    have hclose : e ≠ .wal .closeReturn := by
      rintro rfl
      obtain ⟨db₀, hphase₀⟩ := h.running id post₀ lsn hpost₀ hlsn₀
      cases System.Step.of_step hstep with
      | wal _ hwal =>
          cases hwal with
          | goOn hallow => cases hallow
      | drain hclosing =>
          rw [hphase₀] at hclosing
          cases hclosing
      | closed hclosing =>
          rw [hphase₀] at hclosing
          cases hclosing
    obtain ⟨hpast, hmine⟩ := Tale.mine_next (t := t) hok hclose
    rw [hpast, hmine, Post.batch_follow]
    exact h.mine id post₀ lsn hpost₀ hlsn₀
  · obtain ⟨post₀, -, rfl⟩ := follow_getElem? hpost
    exact (Post.underWay_follow hlsn).2
  · obtain ⟨post₀, hpost₀, heq⟩ := follow_getElem? hpost
    have hsame := Post.written_follow heq.symm
    subst hsame
    obtain ⟨k, hk, hsafe⟩ := h.kept id batch hpost₀ hfirst
    exact ⟨k, hk, fun hwritten => Nat.lt_of_lt_of_le (hsafe hwritten)
      (Tale.safe_le_next h.told.safe_le)⟩

/-- A crash loses requests that are not safe, and all that are under way.
The writes that are left are the first `k`, and so are the requests they are
of; every request that has been told its samples are written stands among
them, for it had waited, and its write is safe. -/
theorem Tells.crash (h : s.Tells json durability t ids first)
    {removed : List Nat}
    (hs : s.event texts json cfg (.crash removed) = some s') :
    ∃ k, t.safe ≤ k ∧ s'.Tells json durability (t.crash k) (ids.take k)
      s.posts.length := by
  obtain ⟨-, hstep, hposts⟩ := event_cases hs
  obtain ⟨k, hsafe, -, htold⟩ := h.told.crash hstep
  have hdown : s'.system.phase = .down := by
    obtain ⟨system, posts⟩ := s'
    cases System.Step.of_step hstep
    rfl
  have hnone : ∀ (id : Nat) (post : Post) lsn, s'.posts[id]? = some post →
      post.underWay ≠ some lsn := by
    intro id post lsn hpost hlsn
    rw [hposts] at hpost
    obtain ⟨post₀, -, rfl⟩ := follow_getElem? hpost
    obtain ⟨db, hrunning⟩ := (Post.underWay_follow hlsn).2
    rw [hdown] at hrunning
    cases hrunning
  refine ⟨k, hsafe, htold, h.asc.sublist (List.take_sublist k ids), ?_,
    fun id post lsn hpost hlsn => absurd hlsn (hnone id post lsn hpost),
    fun id post lsn hpost hlsn => absurd hlsn (hnone id post lsn hpost),
    fun id batch hpost hfirst => ?_⟩
  · rw [Tale.writes_crash, hposts]
    exact List.forall₂_take k (h.wrote.imp fun _ _ => wrote_follow)
  · rw [hposts] at hpost
    obtain ⟨post₀, hpost₀, heq⟩ := follow_getElem? hpost
    have hsame := Post.written_follow heq.symm
    subst hsame
    rcases hfirst with hwritten | hlater
    · obtain ⟨j, hj, hold⟩ := h.kept id batch hpost₀ (.inl hwritten)
      have hlt : j < k := Nat.lt_of_lt_of_le (hold hwritten) hsafe
      refine ⟨j, ?_, fun _ => hlt⟩
      rw [List.getElem?_take, if_pos hlt]
      exact hj
    · have hlt := (List.getElem?_eq_some_iff.mp hpost₀).1
      exact absurd hlater (Nat.not_le.mpr hlt)

private theorem concat_getElem? {posts : List Post} {new post : Post}
    {id : Nat} (h : (posts ++ [new])[id]? = some post) :
    posts[id]? = some post ∨ id = posts.length ∧ post = new := by
  rcases Nat.lt_or_ge id posts.length with hlt | hge
  · rw [List.getElem?_append_left hlt] at h
    exact .inl h
  · rw [List.getElem?_append_right hge, List.getElem?_singleton] at h
    split at h
    · cases h
      exact .inr ⟨by omega, rfl⟩
    · cases h

private theorem wrote_concat {posts : List Post} (new : Post) {id : Nat}
    {batch : WriteBatch} (h : Wrote posts id batch) :
    Wrote (posts ++ [new]) id batch := by
  refine Wrote.mono (fun id post hpost => ⟨post, ?_, rfl, rfl⟩) h
  rw [List.getElem?_append_left (List.getElem?_eq_some_iff.mp hpost).1]
  exact hpost

/-- A request that is refused adds nothing. -/
private theorem Tells.refused (h : s.Tells json durability t ids first)
    {system : System} {t' : Tale} (htold : system.Tells json t')
    (hpast : t'.past = t.past) (hmine : t'.mine = t.mine)
    (hsafe : t'.safe = t.safe)
    (hphase : ∃ db, system.phase = .running db) (batch : WriteBatch)
    (reply : Api.Reply) :
    Tells json durability t' ids first
      ⟨system, s.posts ++ [.refused batch reply]⟩ := by
  refine ⟨htold, h.asc, ?_, fun id post lsn hpost hlsn => ?_,
    fun id post lsn hpost hlsn => hphase, fun id batch hpost hfirst => ?_⟩
  · have hwrites : t'.writes = t.writes := by
      unfold Tale.writes
      rw [hpast, hmine]
    rw [hwrites]
    exact h.wrote.imp fun _ _ => wrote_concat _
  · rcases concat_getElem? hpost with hpost | ⟨-, rfl⟩
    · rw [hpast, hmine]
      exact h.mine id post lsn hpost hlsn
    · cases hlsn
  · rcases concat_getElem? hpost with hpost | ⟨-, hnew⟩
    · rw [hsafe]
      exact h.kept id batch hpost hfirst
    · cases hnew

theorem Tells.refuse (h : s.Tells json durability t ids first)
    {body : List Api.WriteSeries}
    (hs : s.refuse texts body = some s') :
    s'.Tells json durability t ids first := by
  unfold Server.refuse at hs
  split at hs
  · rename_i db hphase
    split at hs
    · cases hs
      exact h.refused h.told rfl rfl rfl ⟨db, hphase⟩ _ _
    · cases hs
  · cases hs

/-- A request whose write the log has accepted is the last that stands. One
that is refused is answered at once, and stands for nothing. -/
theorem Tells.post (hjson : json.Lawful)
    (h : s.Tells json durability t ids first)
    {body : List Api.WriteSeries} {result : Except WalError Nat}
    (hs : s.post texts json cfg body result = some s') :
    ∃ added, s'.Tells json durability
      (t.next (.write (Api.batchOf body) result)) (ids ++ added) first := by
  obtain ⟨system, hstep, rfl⟩ := Option.map_eq_some_iff.mp hs
  have htold := h.told.step hjson (by simp) hstep
  have hphase : ∃ db, system.phase = .running db := by
    cases System.Step.of_step hstep
    exact ⟨_, rfl⟩
  cases result with
  | error e =>
      refine ⟨[], ?_⟩
      rw [List.append_nil]
      exact h.refused htold rfl rfl rfl hphase _ _
  | ok lsn =>
      refine ⟨[s.posts.length], ?_⟩
      obtain ⟨new, hnew, hbatch, hnot, hlsn, hreply⟩ : ∃ new : Post,
          (Post.writing (Api.batchOf body) lsn).follow texts none system.phase
            = new ∧ new.batch = Api.batchOf body ∧ new.isRefused = false
          ∧ new.underWay = some lsn
          ∧ ∀ batch, new ≠ .answered batch Api.written := by
        refine ⟨_, rfl, Post.batch_follow, Post.isRefused_follow, ?_, ?_⟩
        · obtain ⟨db, hdb⟩ := hphase
          rw [hdb]
          simp only [Post.follow]
          split
          · rfl
          · rfl
        · intro batch heq
          cases Post.written_follow heq
      simp only [hnew]
      have hlen : ids.length = t.writes.length := h.wrote.length_eq
      refine ⟨htold, ?_, ?_, fun id post lsn' hpost hlsn' => ?_,
        fun id post lsn' hpost hlsn' => hphase,
        fun id batch hpost hfirst => ?_⟩
      · refine List.pairwise_append.mpr ⟨h.asc, List.pairwise_singleton _ _,
          fun id hid last hlast => ?_⟩
        rw [List.mem_singleton.mp hlast]
        obtain ⟨k, hk⟩ := List.mem_iff_getElem?.mp hid
        have hk' := (List.getElem?_eq_some_iff.mp hk)
        obtain ⟨hlt, hget⟩ := hk'
        obtain ⟨post, hpost, -⟩ := (List.forall₂_iff_get.mp h.wrote).2 k hlt
          (hlen ▸ hlt)
        rw [List.get_eq_getElem, hget] at hpost
        exact (List.getElem?_eq_some_iff.mp hpost).1
      · rw [Tale.writes_ok]
        refine List.rel_append (h.wrote.imp fun _ _ => wrote_concat _)
          (.cons ⟨new, ?_, hbatch, hnot⟩ .nil)
        rw [List.getElem?_append_right (Nat.le_refl _), Nat.sub_self]
        rfl
      · rcases concat_getElem? hpost with hpost | ⟨rfl, rfl⟩
        · obtain ⟨front, back, hmine, hid⟩ := h.mine id post lsn' hpost hlsn'
          refine ⟨front, back ++ [(Api.batchOf body, lsn)], ?_, ?_⟩
          · show t.mine ++ _ = _
            rw [hmine, List.append_assoc, List.cons_append]
          · show (ids ++ _)[t.past.length + front.length]? = _
            rw [List.getElem?_append_left
              (List.getElem?_eq_some_iff.mp hid).1]
            exact hid
        · rw [hlsn, Option.some.injEq] at hlsn'
          subst hlsn'
          refine ⟨t.mine, [], ?_, ?_⟩
          · rw [hbatch]
            rfl
          · show (ids ++ _)[t.past.length + t.mine.length]? = _
            have hat : t.past.length + t.mine.length = ids.length := by
              rw [hlen, Tale.writes, List.length_append, List.length_map]
            rw [hat, List.getElem?_append_right (Nat.le_refl _), Nat.sub_self]
            rfl
      · rcases concat_getElem? hpost with hpost | ⟨-, hanswered⟩
        · obtain ⟨k, hk, hsafe⟩ := h.kept id batch hpost hfirst
          refine ⟨k, ?_, hsafe⟩
          rw [List.getElem?_append_left (List.getElem?_eq_some_iff.mp hk).1]
          exact hk
        · exact absurd hanswered.symm (hreply batch)

/-- A request that has been waiting comes to its end: it is answered or
given up. Its own place in the list changes and no other; if it is told that
its samples are written, the caller of this lemma says why they are safe. -/
private theorem Tells.ended (h : s.Tells json durability t ids first)
    {id lsn : Nat} {batch : WriteBatch}
    (hold : s.posts[id]? = some (.waiting batch lsn)) {new : Post}
    (hbatch : new.batch = batch) (hnot : new.isRefused = false)
    (hend : new.underWay = none) {system : System} {t' : Tale}
    (htold : system.Tells json t') (hpast : t'.past = t.past)
    (hmine : t'.mine = t.mine) (hsafe : t.safe ≤ t'.safe)
    (hphase : ∃ db, system.phase = .running db)
    (hkept : new = .answered batch Api.written → durability = .written →
      ∀ front back, t.mine = front ++ (batch, lsn) :: back →
        t.past.length + front.length < t'.safe) :
    Tells json durability t' ids first ⟨system, s.posts.set id new⟩ := by
  have hset : ∀ {id' : Nat} {post : Post},
      (s.posts.set id new)[id']? = some post →
      s.posts[id']? = some post ∨ id' = id ∧ post = new := by
    intro id' post hpost
    rw [List.getElem?_set] at hpost
    split at hpost
    · rename_i heq
      split at hpost
      · cases hpost
        exact .inr ⟨heq.symm, rfl⟩
      · cases hpost
    · exact .inl hpost
  refine ⟨htold, h.asc, ?_, fun id' post lsn' hpost hlsn' => ?_,
    fun id' post lsn' hpost hlsn' => hphase,
    fun id' batch' hpost hfirst => ?_⟩
  · have hwrites : t'.writes = t.writes := by
      unfold Tale.writes
      rw [hpast, hmine]
    rw [hwrites]
    refine h.wrote.imp fun _ _ => Wrote.mono fun id' post hpost => ?_
    by_cases heq : id' = id
    · subst heq
      rw [hold, Option.some.injEq] at hpost
      subst hpost
      refine ⟨new, ?_, hbatch, hnot⟩
      rw [List.getElem?_set_self (List.getElem?_eq_some_iff.mp hold).1]
    · refine ⟨post, ?_, rfl, rfl⟩
      rw [List.getElem?_set_ne (Ne.symm heq)]
      exact hpost
  · rcases hset hpost with hpost | ⟨-, rfl⟩
    · rw [hpast, hmine]
      exact h.mine id' post lsn' hpost hlsn'
    · rw [hend] at hlsn'
      cases hlsn'
  · rcases hset hpost with hpost | ⟨rfl, rfl⟩
    · obtain ⟨k, hk, hlt⟩ := h.kept id' batch' hpost hfirst
      exact ⟨k, hk, fun hw => Nat.lt_of_lt_of_le (hlt hw) hsafe⟩
    · obtain ⟨front, back, hcut, hat⟩ := h.mine id' _ lsn hold rfl
      obtain rfl : batch' = batch := hbatch
      exact ⟨_, hat, fun hw => hkept rfl hw front back hcut⟩

theorem Tells.cancel (h : s.Tells json durability t ids first) {id : Nat}
    (hs : s.cancel id = some s') : s'.Tells json durability t ids first := by
  unfold Server.cancel at hs
  split at hs
  · rename_i batch lsn hold
    cases hs
    exact h.ended hold rfl rfl rfl h.told rfl rfl (Nat.le_refl _)
      (h.running id _ lsn hold rfl) fun hnew => (by cases hnew)
  · cases hs

/-- A reply that samples are written has been waited for. -/
theorem Tells.reply (hjson : json.Lawful)
    (h : s.Tells json durability t ids first) {id : Nat}
    (hs : s.reply json cfg durability id = some s') :
    ∃ t', s'.Tells json durability t' ids first ∧ t.safe ≤ t'.safe
      ∧ t'.orderly = t.orderly := by
  unfold Server.reply at hs
  split at hs
  · rename_i batch lsn hold
    obtain ⟨db, hphase⟩ := h.running id _ lsn hold rfl
    cases durability with
    | none =>
        cases hs
        exact ⟨t, h.ended hold rfl rfl rfl h.told rfl rfl (Nat.le_refl _)
          ⟨db, hphase⟩ fun _ hw => (by cases hw), Nat.le_refl _, rfl⟩
    | written =>
        obtain ⟨system, hstep, rfl⟩ := Option.map_eq_some_iff.mp hs
        have htold := h.told.step hjson (by simp) hstep
        have hrunning : ∃ db, system.phase = .running db := by
          cases System.Step.of_step hstep with
          | wal => exact ⟨_, rfl⟩
          | drain hclosing =>
              rw [hphase] at hclosing
              cases hclosing
        exact ⟨_, h.ended hold rfl rfl rfl htold rfl rfl
          (Tale.safe_le_next h.told.safe_le) hrunning
          fun _ _ front back hcut => Tale.safe_waited hcut (Nat.le_refl lsn),
          Tale.safe_le_next h.told.safe_le, rfl⟩
  · cases hs

-- ================================================================= the runs

/-- Whatever is told later, the safe requests stand. -/
structure Carries (t t' : Tale) (ids ids' : List Nat) : Prop where
  safe : t.safe ≤ t'.safe
  stand : ids.take t.safe <+: ids'

variable {t' : Tale} {ids' : List Nat}

theorem Carries.refl (t : Tale) (ids : List Nat) : Carries t t ids ids :=
  ⟨Nat.le_refl _, List.take_prefix _ _⟩

theorem Carries.trans {t₁ : Tale} {ids₁ : List Nat}
    (h : Carries t t₁ ids ids₁) (h' : Carries t₁ t' ids₁ ids') :
    Carries t t' ids ids' := by
  refine ⟨Nat.le_trans h.safe h'.safe, .trans ?_ h'.stand⟩
  refine List.prefix_take_iff.mpr ⟨h.stand, Nat.le_trans ?_ h.safe⟩
  exact List.length_take_le _ _

/-- One step: `first` moves with a crash, and a refused write leaves the
label sets in disorder. Each kind of turn has its lemma above. -/
theorem Tells.step (hjson : json.Lawful)
    (h : s.Tells json durability t ids first)
    (hs : Server.step texts json cfg durability turn s = some s') :
    ∃ t' ids' first', s'.Tells json durability t' ids' first'
      ∧ Carries t t' ids ids'
      ∧ ((∀ body err, turn ≠ .post body (.error err)) →
        t'.orderly = t.orderly)
      ∧ ((∀ removed, turn ≠ .event (.crash removed)) → first' = first) := by
  cases turn with
  | event e =>
      by_cases hcrash : ∃ removed, e = .crash removed
      · obtain ⟨removed, rfl⟩ := hcrash
        obtain ⟨k, hsafe, h'⟩ := h.crash hs
        exact ⟨_, _, _, h', ⟨hsafe, List.take_prefix_take_left hsafe⟩,
          fun _ => rfl, fun hno => absurd rfl (hno removed)⟩
      · refine ⟨_, _, _, h.event hjson (fun removed hc => hcrash ⟨_, hc⟩) hs,
          ⟨Tale.safe_le_next h.told.safe_le, List.take_prefix _ _⟩,
          fun _ => ?_, fun _ => rfl⟩
        have hwrite := (event_cases hs).1
        cases e with
        | wal a => cases a <;> rfl
        | write batch result => exact absurd rfl (hwrite batch result)
        | _ => rfl
  | post body result =>
      obtain ⟨added, h'⟩ := h.post hjson hs
      refine ⟨_, _, _, h', ⟨Tale.safe_le_next h.told.safe_le,
        (List.take_prefix _ _).trans (List.prefix_append _ _)⟩,
        fun hno => ?_, fun _ => rfl⟩
      cases result with
      | ok lsn => rfl
      | error err => exact absurd rfl (hno body err)
  | refuse body =>
      exact ⟨_, _, _, h.refuse hs, .refl t ids, fun _ => rfl, fun _ => rfl⟩
  | reply id =>
      obtain ⟨t', h', hsafe, horder⟩ := h.reply hjson hs
      exact ⟨_, _, _, h', ⟨hsafe, List.take_prefix _ _⟩, fun _ => horder,
        fun _ => rfl⟩
  | cancel id =>
      exact ⟨_, _, _, h.cancel hs, .refl t ids, fun _ => rfl, fun _ => rfl⟩

theorem Tells.run (hjson : json.Lawful)
    (h : s.Tells json durability t ids first)
    (hrun : exec (Server.step texts json cfg durability) turns s = some s') :
    ∃ t' ids' first', s'.Tells json durability t' ids' first'
      ∧ Carries t t' ids ids'
      ∧ ((∀ body err, .post body (.error err) ∉ turns) →
        t'.orderly = t.orderly)
      ∧ ((∀ removed, .event (.crash removed) ∉ turns) → first' = first) := by
  induction turns generalizing s t ids first with
  | nil =>
      cases hrun
      exact ⟨t, ids, first, h, .refl t ids, fun _ => rfl, fun _ => rfl⟩
  | cons turn turns ih =>
      obtain ⟨s₁, hs, hrest⟩ := Option.bind_eq_some_iff.mp hrun
      obtain ⟨t₁, ids₁, first₁, h₁, hcarries, horder, hfirst⟩ :=
        h.step hjson hs
      obtain ⟨t', ids', first', h', hcarries', horder', hfirst'⟩ :=
        ih h₁ hrest
      refine ⟨t', ids', first', h', hcarries.trans hcarries', fun hno => ?_,
        fun hno => ?_⟩
      · rw [horder' fun body err hin =>
            hno body err (List.mem_cons_of_mem _ hin),
          horder fun body err heq => hno body err (heq ▸ List.mem_cons_self)]
      · rw [hfirst' fun removed hin =>
            hno removed (List.mem_cons_of_mem _ hin),
          hfirst fun removed heq => hno removed (heq ▸ List.mem_cons_self)]

/-- One may begin to count anywhere. -/
theorem Tells.later (h : s.Tells json durability t ids first) :
    s.Tells json durability t ids s.posts.length where
  told := h.told
  asc := h.asc
  wrote := h.wrote
  mine := h.mine
  running := h.running
  kept id batch hpost hfirst := by
    refine h.kept id batch hpost (hfirst.imp_right fun hle => ?_)
    have hlt := (List.getElem?_eq_some_iff.mp hpost).1
    exact absurd hle (Nat.not_le.mpr hlt)

private theorem posts_concat {posts : List Post} {id : Nat} {post : Post}
    (h : posts[id]? = some post) (new : Post) :
    ∃ post', (posts ++ [new])[id]? = some post' ∧ post'.batch = post.batch
      ∧ (post.underWay = none → post' = post) := by
  refine ⟨post, ?_, rfl, fun _ => rfl⟩
  rw [List.getElem?_append_left (List.getElem?_eq_some_iff.mp h).1]
  exact h

private theorem posts_set {posts : List Post} {id at_ lsn : Nat}
    {post new : Post} {batch : WriteBatch} (h : posts[id]? = some post)
    (hold : posts[at_]? = some (.waiting batch lsn))
    (hbatch : new.batch = batch) :
    ∃ post', (posts.set at_ new)[id]? = some post'
      ∧ post'.batch = post.batch
      ∧ (post.underWay = none → post' = post) := by
  by_cases heq : at_ = id
  · subst heq
    rw [h, Option.some.injEq] at hold
    subst hold
    refine ⟨new, ?_, hbatch, fun hend => (by cases hend)⟩
    rw [List.getElem?_set_self (List.getElem?_eq_some_iff.mp h).1]
  · refine ⟨post, ?_, rfl, fun _ => rfl⟩
    rw [List.getElem?_set_ne heq]
    exact h

/-- A step keeps each request's place and what it asked for, and leaves a
request alone that has ended. -/
private theorem posts_step
    (hs : Server.step texts json cfg durability turn s = some s')
    {id : Nat} {post : Post} (hpost : s.posts[id]? = some post) :
    ∃ post', s'.posts[id]? = some post' ∧ post'.batch = post.batch
      ∧ (post.underWay = none → post' = post) := by
  cases turn with
  | event e =>
      rw [(event_cases hs).2.2, List.getElem?_map, hpost]
      exact ⟨_, rfl, Post.batch_follow, Post.follow_ended⟩
  | post body result =>
      obtain ⟨system, -, rfl⟩ := Option.map_eq_some_iff.mp hs
      exact posts_concat hpost _
  | refuse body =>
      simp only [Server.step, Server.refuse] at hs
      split at hs
      · split at hs
        · cases hs
          exact posts_concat hpost _
        · cases hs
      · cases hs
  | reply at_ =>
      simp only [Server.step, Server.reply] at hs
      split at hs
      · rename_i batch lsn hold
        split at hs
        · cases hs
          exact posts_set hpost hold rfl
        · obtain ⟨system, -, rfl⟩ := Option.map_eq_some_iff.mp hs
          exact posts_set hpost hold rfl
      · cases hs
  | cancel at_ =>
      simp only [Server.step, Server.cancel] at hs
      split at hs
      · rename_i batch lsn hold
        cases hs
        exact posts_set hpost hold rfl
      · cases hs

/-- What a request has asked for, and what it has been told, stays so. -/
theorem posts_run
    (hrun : exec (Server.step texts json cfg durability) turns s = some s')
    {id : Nat} {post : Post} (hpost : s.posts[id]? = some post) :
    ∃ post', s'.posts[id]? = some post' ∧ post'.batch = post.batch
      ∧ (post.underWay = none → post' = post) := by
  induction turns generalizing s post with
  | nil =>
      cases hrun
      exact ⟨post, hpost, rfl, fun _ => rfl⟩
  | cons turn turns ih =>
      obtain ⟨s₁, hs, hrest⟩ := Option.bind_eq_some_iff.mp hrun
      obtain ⟨post₁, hpost₁, hbatch₁, hsame₁⟩ := posts_step hs hpost
      obtain ⟨post', hpost', hbatch', hsame'⟩ := ih hrest hpost₁
      refine ⟨post', hpost', hbatch'.trans hbatch₁, fun hend => ?_⟩
      have hpost₁ := hsame₁ hend
      subst hpost₁
      exact hsame' hend

end Server

/-- What is told of a server, to those who ask it: the requests `ids` have
had these batches written, one after the other; and a read tells of them, if
no write has been refused. -/
structure Server.Serves (texts : Texts) (json : Json) (orderly : Prop)
    (ids : List Nat) (writes : List WriteBatch) (s : Server) : Prop where
  asc : ids.Pairwise (· < ·)
  wrote : List.Forall₂ (Server.Wrote s.posts) ids writes
  reads : orderly → ∀ db, s.system.phase = .running db → ∀ params reply,
    s.system.read texts json params = some reply →
    Api.Tells texts writes db.state.failed params reply

theorem Server.Tells.serves {s : Server} {t : Tale} {ids : List Nat}
    {first : Nat} (h : s.Tells json durability t ids first) {orderly : Prop}
    (horder : orderly → t.orderly = true) :
    s.Serves texts json orderly ids t.writes :=
  ⟨h.asc, h.wrote, fun hor _ hphase _ _ hread =>
    h.told.read (horder hor) hphase hread⟩

/-- Where no request is under way, the steps of the system but a write are
steps of the server, and leave its requests as they are. A request that has
ended follows nothing, and with none under way a drop is allowed. -/
theorem Server.exec_events {events : List Event} {posts : List Post}
    (hwrite : ∀ batch result, .write batch result ∉ events)
    (hended : ∀ post ∈ posts, post.underWay = none) {s s' : System}
    (hrun : exec (System.step json cfg) events s = some s') :
    exec (Server.step texts json cfg durability) (events.map .event)
      ⟨s, posts⟩ = some ⟨s', posts⟩ := by
  have hsame : ∀ error phase,
      posts.map (·.follow texts error phase) = posts := fun error phase =>
    (List.map_congr_left fun post hpost =>
      Post.follow_ended (hended post hpost)).trans (List.map_id posts)
  induction events generalizing s with
  | nil =>
      cases hrun
      rfl
  | cons e events ih =>
      obtain ⟨s₁, hs, hrest⟩ := Option.bind_eq_some_iff.mp hrun
      have hone : Server.event texts json cfg e ⟨s, posts⟩
          = some ⟨s₁, posts⟩ := by
        cases e with
        | write batch result =>
            exact absurd List.mem_cons_self (hwrite batch result)
        | drop =>
            have hquiet : (⟨s, posts⟩ : Server).quiet = true :=
              List.all_eq_true.mpr fun post hpost =>
                Option.isNone_iff_eq_none.mpr (hended post hpost)
            simp only [Server.event, hquiet, hs]
            rfl
        | _ =>
            simp only [Server.event, hs, Option.map_some, hsame]
      show (Server.event texts json cfg e ⟨s, posts⟩).bind _ = _
      rw [hone]
      exact ih (fun batch result hin =>
        hwrite batch result (List.mem_cons_of_mem _ hin)) hrest

/-- After any run that has ended, a server is started again, and opens the
database; what its clients have been told stays. The directories open by
`System.Tells.opens`, and the events of that are the server's own, by
`Server.exec_events`: no request is left under way by a process that is
down. -/
theorem Server.reopens (hjson : json.Lawful) (htotal : json.Total)
    {turns : List Server.Turn} {s : Server}
    (hrun : exec (Server.step texts json cfg durability) turns {} = some s)
    (hphase : s.system.phase = .down) {max : Nat} (hmax : max ≠ 0)
    (reads : Nat → Nat → Nat) :
    ∃ (es : List Event) (system : System),
      (∀ batch result, .write batch result ∉ es)
      ∧ exec (Server.step texts json cfg durability) (es.map .event) s
        = some ⟨system, s.posts⟩
      ∧ system.Ready := by
  obtain ⟨t, ids, first, h, -⟩ :=
    (Server.Tells.empty json durability).run hjson hrun
  have hended : ∀ post ∈ s.posts, post.underWay = none := by
    intro post hpost
    obtain ⟨id, hid⟩ := List.mem_iff_getElem?.mp hpost
    cases hlsn : post.underWay with
    | none => rfl
    | some lsn =>
        obtain ⟨db, hrunning⟩ := h.running id post lsn hid hlsn
        rw [hphase] at hrunning
        cases hrunning
  have hopens : s.system.Opens json cfg := h.told.opens hjson htotal hphase
  obtain ⟨es, system, hes, hopened, hready⟩ :=
    hopens.reopen hphase hmax reads
  have hwrite : ∀ batch result,
      .write batch result ∉ .openWith max reads :: es := by
    intro batch result hin
    rcases List.mem_cons.mp hin with hin | hin
    · cases hin
    · cases hes _ hin
  exact ⟨_, system, hwrite, Server.exec_events hwrite hended hopened, hready⟩

/-- An open database that nobody works on has a reply, and there `Serves`
says what it tells of. -/
theorem Server.Serves.reply {s : Server} {ids : List Nat}
    {writes : List WriteBatch} {orderly : Prop}
    (h : s.Serves texts json orderly ids writes) (horder : orderly)
    (hready : s.system.Ready) (params : HashMap String String) :
    ∃ reply, s.system.read texts json params = some reply
      ∧ Api.Tells texts writes false params reply := by
  obtain ⟨db, hphase, hpc, hfailed⟩ := hready
  obtain ⟨reply, hread⟩ := System.read_idle texts json params hphase hpc
  have htells := h.reads horder db hphase params reply hread
  rw [hfailed] at htells
  exact ⟨reply, hread, htells⟩

namespace Server.Serves

variable {s : Server} {ids : List Nat} {writes : List WriteBatch}
  {orderly : Prop}

/-- The writes that stand, by the requests they belong to. -/
theorem writes_eq (h : s.Serves texts json orderly ids writes) :
    writes.map some = ids.map fun id => (s.posts.map Post.batch)[id]? := by
  have hwrote := h.wrote
  clear h
  induction hwrote with
  | nil => rfl
  | cons hfirst _ ih =>
      obtain ⟨post, hpost, rfl, -⟩ := hfirst
      rw [List.map_cons, List.map_cons, ih, List.getElem?_map, hpost,
        Option.map_some]

/-- What stands has been asked for, in this order and no more often. -/
theorem sublist (h : s.Serves texts json orderly ids writes) :
    writes.Sublist (s.posts.map Post.batch) := by
  have hids : ids.Sublist (.range s.posts.length) := by
    refine List.sublist_of_subperm_of_pairwise
      (List.subperm_of_subset h.asc.nodup fun id hid => ?_) h.asc
      List.pairwise_lt_range
    obtain ⟨k, hk, rfl⟩ := List.getElem_of_mem hid
    obtain ⟨post, hpost, -⟩ := (List.forall₂_iff_get.mp h.wrote).2 k hk
      (h.wrote.length_eq ▸ hk)
    exact List.mem_range.mpr (List.getElem?_eq_some_iff.mp hpost).1
  have hall : (s.posts.map Post.batch).map some
      = (List.range s.posts.length).map fun id =>
        (s.posts.map Post.batch)[id]? := by
    refine List.ext_getElem (by simp) fun id hid hid' => ?_
    simp only [List.length_map] at hid
    simp [hid]
  have hsome := hids.map fun id => (s.posts.map Post.batch)[id]?
  rw [← h.writes_eq, ← hall, List.sublist_map_iff] at hsome
  obtain ⟨writes', hsub, heq⟩ := hsome
  rw [List.map_injective_iff.mpr (Option.some_injective _) heq]
  exact hsub

end Server.Serves

section Once

end Once

end Tsdb
