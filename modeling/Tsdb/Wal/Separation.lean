/-
A cut separates the log: the handshake of `Cut`, in every run from
`Wal::open`. What is removed behind a cut is `Removal.lean`'s subject.

# Where a record lies

`LiesIn files lsn rec f`: the record with that LSN lies in the file `f`.
Ids count up along the files, so "in a segment up to `c`" is a prefix of
the log (`Log.through`), and a closed prefix never changes. The two
directions are `liesIn_of_through`, which locates a record by the number
of records up to a closed segment, and `le_through_of_liesIn`, which
counts by the file a record lies in.

# The handshake

`CutInv` follows a request from the moment the flusher sees it. Seeing it
comes after it was made, and the flusher answers only once it has found
the buffer empty with nothing in hand, so everything accepted before the
request is flushed (`drained`), in segments up to the one it then closes
(`served`, `answered`). The caller that waits holds the lock, so no
answer can be for anyone else, and each is above all earlier ones
(`fresh`).

All of it is numbers of records: `beforeCut` counts what was accepted
before the latest request, and a count once reached by what is flushed
stays reached, because the log only grows. So a step that makes no
request and no answer keeps every clause (`grow`). With nobody waiting
the clauses are empty (`quiet`), which is how a new request is let in.
The flusher's own steps have a lemma of their own.

# Over runs

At the return of a cut the invariant says that the segments up to the
answer have what was accepted before the request, and the answer is
closed, so what is accepted later goes behind (`FromOpen.returned`).
While the caller waits nobody else makes a request
(`waiting_run`), hence the latest request is its own.
-/
import Mathlib.Data.List.Induction
import Tsdb.Wal.Delivery

namespace Tsdb.Wal

open Lib (Ascending Bytes Run exec)

-- ================================================== where a record lies

/-- The record that ends at `lsn` lies in the file `f`. -/
def LiesIn (files : List LogFile) (lsn : Nat) (rec : WalRecord)
    (f : LogFile) : Prop :=
  ∃ l r pre post, files = l ++ f :: r
    ∧ f.bytes = pre ++ recordBytes rec ++ post
    ∧ lsn = (fileBytes l ++ pre ++ recordBytes rec).length

/-- An element of a concatenation stands in one of its parts. -/
private theorem flatten_locate {α : Type} {parts : List (List α)}
    {as bs : List α} {a : α} (h : parts.flatten = as ++ a :: bs) :
    ∃ l p r x y, parts = l ++ p :: r ∧ p = x ++ a :: y
      ∧ as = l.flatten ++ x := by
  induction parts generalizing as with
  | nil => simp at h
  | cons p parts ih =>
      -- either `a` is in `p`, or `p` is all in front of it
      have hrest : ∀ cs, as = p ++ cs → parts.flatten = cs ++ a :: bs →
          ∃ l q r x y, p :: parts = l ++ q :: r ∧ q = x ++ a :: y
            ∧ as = l.flatten ++ x := by
        intro cs hcs hflat
        obtain ⟨l, q, r, x, y, rfl, hq, rfl⟩ := ih hflat
        exact ⟨p :: l, q, r, x, y, rfl, hq, by simp [hcs]⟩
      rw [List.flatten_cons, List.append_eq_append_iff] at h
      rcases h with ⟨cs, hcs, hflat⟩ | ⟨cs, hp, hflat⟩
      · exact hrest cs hcs hflat
      · cases cs with
        | nil =>
            exact hrest [] (by simpa using hp.symm) (by simpa using hflat.symm)
        | cons c cs =>
            injection hflat with hc _
            subst hc
            exact ⟨[], p, parts, as, cs, rfl, hp, rfl⟩

namespace Sim

variable {base : Nat} {log : Log} {hand rest : List WalRecord}
  {disk : Disk} {m : Machine}

/-- The ids count up along the files. -/
theorem id_eq (h : Sim base log hand rest disk m) {l r : List LogFile}
    {f : LogFile} (hf : disk.drop base = l ++ f :: r) :
    f.id = log.first + l.length := by
  have hids := h.ids
  rw [← List.map_drop, hf, List.map_append, List.map_cons] at hids
  have hget := congrArg (fun ids : List Nat => ids[l.length]?) hids
  simp only [List.getElem?_append_right (Nat.le_of_eq (List.length_map _)),
    List.length_map, Nat.sub_self, List.getElem?_cons_zero] at hget
  have hlt : l.length < log.closed.length + 1 + m.pc.fresh := by
    have := congrArg List.length hids
    simp only [List.length_append, List.length_map, List.length_cons,
      List.length_range'] at this
    omega
  rw [List.getElem?_range' hlt, Option.some.injEq] at hget
  omega

/-- The bytes of the closed segments in front. -/
theorem front_bytes (h : Sim base log hand rest disk m) {k : Nat}
    (hk : k ≤ log.closed.length) :
    ((disk.drop base).take k).map LogFile.bytes
      = (log.closed.take k).map logBytes := by
  rw [List.map_take, List.map_drop, h.bytes,
    List.take_append_of_le_length (by simpa using hk), List.map_take]

/-- A record in the segments up to a closed one lies in one of them. The
segments up to `c` are closed parts of the log; the one that has the record
is found by the number of records in front of it, and the file at its place
has its bytes. -/
theorem liesIn_of_through (h : Sim base log hand rest disk m) {c : Nat}
    (hc : c < log.activeId) {as bs : List WalRecord} {rec : WalRecord}
    (hacc : log.accepted = as ++ rec :: bs)
    (hlt : as.length < (log.through c).length) :
    ∃ f, LiesIn (disk.drop base) (logBytes (as ++ [rec])).length rec f
      ∧ f.id ≤ c := by
  -- the record is in front of the cut, in a closed segment `p`
  have hthrough : log.through c <+: as ++ rec :: bs := by
    rw [← hacc]
    exact log.through_accepted c
  obtain ⟨more, hmore⟩ : ∃ more, log.through c = as ++ rec :: more := by
    have hpre : as ++ [rec] <+: log.through c :=
      List.prefix_of_prefix_length_le ⟨bs, by simp⟩ hthrough (by simp; omega)
    obtain ⟨more, hmore⟩ := hpre
    exact ⟨more, by rw [← hmore]; simp⟩
  obtain ⟨l, p, r, x, y, hparts, rfl, rfl⟩ := flatten_locate hmore
  have hll : l.length < c + 1 - log.first := by
    have := congrArg List.length hparts
    rw [List.length_take, List.length_append, List.length_cons] at this
    omega
  rw [Log.activeId] at hc
  -- the files in front have the bytes of the closed segments
  have hfront := h.front_bytes (k := c + 1 - log.first) (by omega)
  rw [hparts, List.map_append, List.map_cons, List.map_eq_append_iff]
    at hfront
  obtain ⟨fl, fr, htake, hfl, hfr⟩ := hfront
  obtain ⟨f, fr', rfl, hf, -⟩ := List.map_eq_cons_iff.mp hfr
  have hfiles : disk.drop base
      = fl ++ f :: (fr' ++ (disk.drop base).drop (c + 1 - log.first)) := by
    conv_lhs => rw [← List.take_append_drop (c + 1 - log.first)
      (disk.drop base), htake]
    simp
  have hlen : fl.length = l.length := by
    simpa using congrArg List.length hfl
  refine ⟨f, ⟨fl, _, logBytes x, logBytes y, hfiles, ?_, ?_⟩, ?_⟩
  · rw [hf, ← logBytes_singleton, ← logBytes_append, ← logBytes_append]
    simp
  · rw [fileBytes, hfl, ← logBytes_flatten, ← logBytes_singleton,
      ← logBytes_append, ← logBytes_append]
  · rw [h.id_eq hfiles, hlen]
    omega

/-- A record whose last byte is in the files lies in one of them: in a
closed one, or in the active one, behind the records there or in what has
been written of the batch. The record's end is compared with the length of
what is in front of the batch, and a record has at least one byte. -/
theorem liesIn_of_written (h : Sim base log hand rest disk m)
    {as bs : List WalRecord} {rec : WalRecord}
    (hacc : log.accepted = as ++ rec :: bs)
    (hle : (logBytes (as ++ [rec])).length
      ≤ (fileBytes (disk.drop base)).length) :
    ∃ f, LiesIn (disk.drop base) (logBytes (as ++ [rec])).length rec f := by
  have hlen := congrArg List.length h.hand_eq
  rw [List.length_append] at hlen
  rw [h.fileBytes_eq, List.length_append] at hle
  -- the record is flushed, or in hand
  have hpre : as ++ [rec] <+: log.flushed ++ hand := by
    have hacc' : (log.flushed ++ hand) ++ rest = (as ++ [rec]) ++ bs := by
      rw [List.append_assoc, ← h.pending, List.append_assoc]
      exact hacc
    rcases List.append_eq_append_iff.mp hacc' with
      ⟨more, hmore, -⟩ | ⟨more, hmore, -⟩
    · have : more = [] := by
        by_contra hne
        have hpos := logBytes_length_pos hne
        rw [hmore] at hle
        simp only [logBytes_append, List.length_append] at hle
        omega
      rw [hmore, this, List.append_nil]
    · exact ⟨more, hmore.symm⟩
  obtain ⟨more, hmore⟩ := hpre
  have hflat : (log.closed ++ [log.active ++ hand]).flatten
      = as ++ rec :: more := by
    rw [List.append_cons as rec more, hmore, Log.flushed]
    simp
  obtain ⟨l, p, r, x, y, hparts, rfl, rfl⟩ := flatten_locate hflat
  rcases List.eq_nil_or_concat' r with rfl | ⟨r, last, rfl⟩
  · -- in the active file
    obtain ⟨rfl, hp⟩ := List.append_inj' hparts rfl
    have hrec : logBytes x ++ recordBytes rec
        <+: logBytes (log.active ++ hand) := by
      rw [List.singleton_inj.mp hp]
      exact ⟨logBytes y, by
        rw [← logBytes_singleton, ← logBytes_append, ← logBytes_append]
        simp⟩
    have hfile : logBytes log.active ++ m.spare.take m.pc.done
        <+: logBytes (log.active ++ hand) := by
      rw [logBytes_append, ← h.hand_eq, ← List.append_assoc]
      exact List.prefix_append _ _
    obtain ⟨tail, htail⟩ : logBytes x ++ recordBytes rec
        <+: logBytes log.active ++ m.spare.take m.pc.done := by
      refine List.prefix_of_prefix_length_le hrec hfile ?_
      · rw [Log.flushed] at hle
        simp only [logBytes_append, logBytes_singleton, List.length_append]
          at hle ⊢
        omega
    have hbytes := h.bytes
    rw [← List.map_drop, List.map_eq_append_iff] at hbytes
    obtain ⟨fl, fr, hfiles, hfl, hfr⟩ := hbytes
    obtain ⟨f, fr', rfl, hf, -⟩ := List.map_eq_cons_iff.mp hfr
    refine ⟨f, fl, fr', logBytes x, tail, hfiles, ?_, ?_⟩
    · rw [hf, htail]
    · rw [fileBytes, hfl, ← logBytes_flatten, ← logBytes_singleton,
        ← logBytes_append, ← logBytes_append]
  · -- in a closed one
    rw [← List.cons_append, ← List.append_assoc] at hparts
    obtain ⟨hclosed, -⟩ := List.append_inj' hparts rfl
    have htake : log.closed.take (l.length + 1) = l ++ [x ++ rec :: y] := by
      rw [hclosed, List.take_append, List.take_of_length_le (by omega)]
      simp
    obtain ⟨f, hf, -⟩ := h.liesIn_of_through (c := log.first + l.length)
      (by rw [Log.activeId, hclosed, List.length_append, List.length_cons]
          omega)
      hacc (by
        rw [Log.through, show log.first + l.length + 1 - log.first
          = l.length + 1 by omega, htake]
        simp)
    exact ⟨f, hf⟩

/-- A record in a file up to a closed one ends within the segments up to
it. -/
theorem le_through_of_liesIn (h : Sim base log hand rest disk m) {c : Nat}
    (hc : c < log.activeId) {lsn : Nat} {rec : WalRecord} {f : LogFile}
    (hf : LiesIn (disk.drop base) lsn rec f) (hid : f.id ≤ c) :
    lsn ≤ (logBytes (log.through c)).length := by
  obtain ⟨l, r, pre, post, hfiles, hbytes, rfl⟩ := hf
  rw [h.id_eq hfiles] at hid
  rw [Log.activeId] at hc
  have hfront := h.front_bytes (k := l.length + 1) (by omega)
  have htake : (disk.drop base).take (l.length + 1) = l ++ [f] := by
    rw [hfiles, List.take_append, List.take_of_length_le (by omega)]
    simp
  rw [htake] at hfront
  -- the files up to `f` are among the segments up to `c`
  have hle : (logBytes (log.closed.take (l.length + 1)).flatten).length
      ≤ (logBytes (log.through c)).length := by
    have hpre : log.closed.take (l.length + 1)
        <+: log.closed.take (c + 1 - log.first) :=
      List.take_prefix_take_left (by omega)
    obtain ⟨more, hmore⟩ := hpre
    rw [Log.through, ← hmore, List.flatten_append, logBytes_append,
      List.length_append]
    omega
  refine Nat.le_trans ?_ hle
  rw [logBytes_flatten, ← hfront]
  simp only [fileBytes, List.map_append, List.map_singleton,
    List.flatten_append, List.length_append, hbytes, List.flatten_cons,
    List.flatten_nil, List.append_nil]
  omega

/-- A flusher with an empty buffer and nothing in hand. -/
theorem pending_nil (h : Sim base log hand rest disk m)
    (hbuf : m.shared.buffer.buf = []) (hpc : m.pc.holding = none) :
    log.pending = [] := by
  have hrest : rest = [] := by
    by_contra hne
    have := logBytes_length_pos hne
    rw [← h.buf, hbuf] at this
    cases this
  rw [h.pending, h.idle hpc, hrest]
  rfl

/-- Just behind a rotation everything flushed is in the closed
segments. -/
theorem through_rotated (h : Sim base log hand rest disk m) {c : Nat}
    (hpos : m.seg.written = 0) (hc : m.pc.rotated = some c) :
    log.through c = log.flushed := by
  have hactive : log.active = [] := by
    by_contra hne
    have := logBytes_length_pos hne
    rw [← h.pos, hpos] at this
    cases this
  have hlast := h.rotated c hc
  rw [h.id, Log.activeId] at hlast
  rw [Log.through, Log.flushed, hactive, List.append_nil,
    List.take_of_length_le (by omega)]

end Sim

-- ========================================================== the handshake

/-- The records accepted before the latest request. -/
def beforeCut : List Action → List WalRecord :=
  fun as => (as.foldl (fun (seen : List WalRecord × List WalRecord) a =>
    match a with
    | .cutRequest _ => (seen.1, seen.1)
    | a => (seen.1 ++ a.accepted, seen.2)) ([], [])).2

/-- Is the action a request? -/
def Action.isRequest : Action → Bool
  | .cutRequest _ => true
  | _ => false

theorem beforeCut_snoc (as : List Action) (a : Action) :
    beforeCut (as ++ [a])
      = if a.isRequest then acceptedIn as else beforeCut as := by
  have hfst : ∀ as : List Action,
      (as.foldl (fun (seen : List WalRecord × List WalRecord) a =>
        match a with
        | .cutRequest _ => (seen.1, seen.1)
        | a => (seen.1 ++ a.accepted, seen.2)) ([], [])).1
      = acceptedIn as := by
    intro as
    induction as using List.reverseRecOn with
    | nil => rfl
    | append_singleton as a ih =>
        rw [List.foldl_concat, acceptedIn_append, acceptedIn_singleton, ← ih]
        cases a <;> simp [Action.accepted]
  rw [beforeCut, List.foldl_concat, beforeCut, ← hfst]
  cases a <;> rfl

theorem beforeCut_length_le (as : List Action) :
    (beforeCut as).length ≤ (acceptedIn as).length := by
  induction as using List.reverseRecOn with
  | nil => exact Nat.zero_le _
  | append_singleton as a ih =>
      rw [beforeCut_snoc, acceptedIn_append, List.length_append]
      split <;> omega

namespace FlusherPc

/-- The flusher is serving a request. -/
def cutting : FlusherPc → Bool
  | .take _ cutting => cutting
  | .rotate _ .cut => true
  | .finish _ => true
  | _ => false

/-- It has found the buffer empty. -/
def drained : FlusherPc → Bool
  | .rotate _ .cut => true
  | _ => false

/-- It has closed the segment it will answer with. -/
def serves : FlusherPc → Option Nat
  | .rotate (.setFile closed) .cut => some closed
  | .rotate (.store closed) .cut => some closed
  | .finish closed => some closed
  | _ => none

theorem rotated_of_serves {pc : FlusherPc} {c : Nat}
    (h : pc.serves = some c) : pc.rotated = some c := by
  unfold serves at h
  split at h <;> first | exact h | cases h

theorem cutting_of_drained {pc : FlusherPc} (h : pc.drained = true) :
    pc.cutting = true := by
  unfold drained at h
  split at h <;> first | rfl | cases h

theorem cutting_of_serves {pc : FlusherPc} {c : Nat}
    (h : pc.serves = some c) : pc.cutting = true := by
  unfold serves at h
  split at h <;> first | rfl | cases h

end FlusherPc

/-- The caller whose request is being served, or has been answered. -/
def Shared.waiting (s : Shared) : Bool :=
  s.serial.any Cutting.requested

structure CutInv (as : List Action) (log : Log) (m : Machine) : Prop where
  wants : m.pc.cutting = true → m.shared.cut.requested = true
  requested : m.shared.cut.requested = true →
    m.shared.cut.closed = none ∧ m.shared.waiting = true
  drained : m.pc.drained = true →
    (beforeCut as).length ≤ log.flushed.length
  served : ∀ c, m.pc.serves = some c →
    (beforeCut as).length ≤ (log.through c).length
  answered : ∀ c, m.shared.cut.closed = some c → m.shared.waiting = true
    ∧ (beforeCut as).length ≤ (log.through c).length ∧ c < log.activeId
  fresh : ∀ i c₀, .cutReturn i c₀ ∈ as → c₀ < log.activeId
    ∧ (∀ c, m.pc.serves = some c → c₀ < c)
    ∧ ∀ c, m.shared.cut.closed = some c → c₀ < c

namespace CutInv

variable {cfg : WalConfig} {base : Nat} {as : List Action}
  {log log' : Log} {hand rest hand' rest' : List WalRecord}
  {disk disk' : Disk} {m m' : Machine} {moves : List Log.Move} {n : Nat}

theorem start (id file : Nat) (log : Log) :
    CutInv [] log (.start id file) where
  wants := by intro hcase; cases hcase
  requested := by intro hcase; cases hcase
  drained := by intro hcase; cases hcase
  served := by intro c hcase; cases hcase
  answered := by intro c hcase; cases hcase
  fresh := by rintro i c₀ h; cases h

/-- With nobody waiting there is no request, no answer, and nothing being
served. -/
theorem quiet (h : CutInv as log m) (hw : m.shared.waiting = false) :
    m.shared.cut.requested = false ∧ m.shared.cut.closed = none
      ∧ m.pc.cutting = false := by
  have hr : m.shared.cut.requested = false := by
    by_contra hr
    have := (h.requested (by simpa using hr)).2
    rw [hw] at this
    cases this
  refine ⟨hr, ?_, ?_⟩
  · cases hc : m.shared.cut.closed with
    | none => rfl
    | some c =>
        have := (h.answered c hc).1
        rw [hw] at this
        cases this
  · by_contra hcut
    have := h.wants (by simpa using hcut)
    rw [hr] at this
    cases this

/-- The log moves on, and no request or answer comes or goes. What was
accepted before the request is what it was, and prefixes of the log are kept
by its moves, so the clauses stay; the hypotheses allow the flusher to get
one stage further, as long as it has what the next clause asks for. -/
private theorem grow (h : CutInv as log m) (m' : Machine)
    (hsim : Sim base log hand rest disk m)
    (hexec : exec Log.move moves log = some log') {a : Action}
    (ha : a.isRequest = false) (hret : ∀ i c, a ≠ .cutReturn i c)
    (hwants : m'.pc.cutting = true →
      m.pc.cutting = true ∨ m.shared.cut.requested = true)
    (hdrained : m'.pc.drained = true → m.pc.drained = true
      ∨ (beforeCut as).length ≤ log'.flushed.length)
    (hserves : ∀ c, m'.pc.serves = some c → m.pc.serves = some c
      ∨ log.activeId ≤ c ∧ (beforeCut as).length ≤ (log'.through c).length)
    (hcut : m'.shared.cut = m.shared.cut)
    (hserial : m'.shared.serial = m.shared.serial) :
    CutInv (as ++ [a]) log' m' := by
  have hmark : beforeCut (as ++ [a]) = beforeCut as := by
    rw [beforeCut_snoc, if_neg (by simp [ha])]
  have hactive : log.activeId ≤ log'.activeId := Log.exec_activeId hexec
  have hwaiting : m'.shared.waiting = m.shared.waiting := by
    rw [Shared.waiting, Shared.waiting, hserial]
  refine ⟨fun hc => ?_, ?_, fun hd => ?_, fun c hc => ?_, fun c hc => ?_,
    fun i c₀ hmem => ?_⟩
  · rw [hcut]
    exact (hwants hc).elim h.wants id
  · rw [hcut, hwaiting]
    exact h.requested
  · rw [hmark]
    rcases hdrained hd with hd | hle
    · exact Nat.le_trans (h.drained hd) (Log.exec_flushed hexec).length_le
    · exact hle
  · rw [hmark]
    rcases hserves c hc with hc | ⟨-, hle⟩
    · have := hsim.rotated c (FlusherPc.rotated_of_serves hc)
      rw [hsim.id] at this
      rw [Log.exec_through hexec (by omega)]
      exact h.served c hc
    · exact hle
  · rw [hcut] at hc
    obtain ⟨hw, hle, hlt⟩ := h.answered c hc
    rw [hwaiting, hmark, Log.exec_through hexec hlt]
    exact ⟨hw, hle, Nat.lt_of_lt_of_le hlt hactive⟩
  · rcases List.mem_append.mp hmem with hmem | hmem
    · obtain ⟨h₁, h₂, h₃⟩ := h.fresh i c₀ hmem
      rw [hcut]
      refine ⟨Nat.lt_of_lt_of_le h₁ hactive, fun c hc => ?_, h₃⟩
      rcases hserves c hc with hc | ⟨hle, -⟩
      · exact h₂ c hc
      · exact Nat.lt_of_lt_of_le h₁ hle
    · rw [List.mem_singleton] at hmem
      exact absurd hmem.symm (hret i c₀)

/-- Nobody is being served: only the marks of earlier answers matter. -/
private theorem of_quiet (h : CutInv as log m)
    (hexec : exec Log.move moves log = some log') {a : Action}
    (hpc : m'.pc.cutting = false) (hclosed : m'.shared.cut.closed = none)
    (hreq : m'.shared.cut.requested = true → m'.shared.waiting = true)
    (hret : ∀ i c, .cutReturn i c = a → c < log.activeId) :
    CutInv (as ++ [a]) log' m' := by
  have hserves : ∀ c, m'.pc.serves ≠ some c := by
    intro c hc
    rw [FlusherPc.cutting_of_serves hc] at hpc
    cases hpc
  refine ⟨fun hc => ?_, fun hr => ⟨hclosed, hreq hr⟩, fun hd => ?_,
    fun c hc => absurd hc (hserves c), fun c hc => ?_, fun i c₀ hmem => ?_⟩
  · rw [hpc] at hc
    cases hc
  · rw [FlusherPc.cutting_of_drained hd] at hpc
    cases hpc
  · rw [hclosed] at hc
    cases hc
  · refine ⟨Nat.lt_of_lt_of_le ?_ (Log.exec_activeId hexec),
      fun c hc => absurd hc (hserves c), fun c hc => ?_⟩
    · rcases List.mem_append.mp hmem with hmem | hmem
      · exact (h.fresh i c₀ hmem).1
      · exact hret i c₀ (List.mem_singleton.mp hmem)
    · rw [hclosed] at hc
      cases hc

/-- The flusher's part: it sees the request, finds the buffer empty, closes
the segment and answers. Behind the empty buffer nothing is pending and all
that was accepted is flushed; behind the rotation all of it is in closed
segments; and from there to the answer nothing is appended to those. -/
private theorem flusher (h : CutInv as log m)
    (hacc : log.accepted = acceptedIn as)
    (hsim : Sim base log hand rest disk m)
    (hexec : exec Log.move moves log = some log')
    (hsim' : Sim base log' hand' rest' disk' m')
    (hs : FlusherStep cfg n disk m disk' m') :
    CutInv (as ++ [.flusher n]) log' m' := by
  -- with nothing pending, all that was accepted is flushed
  have hall : ∀ {log : Log}, log.pending = [] →
      (acceptedIn as).length ≤ log.accepted.length →
      (beforeCut as).length ≤ log.flushed.length := by
    intro log hpend hle
    rw [Log.accepted, hpend, List.append_nil] at hle
    exact Nat.le_trans (beforeCut_length_le as) hle
  have hgrow := h.grow m' hsim hexec (a := .flusher n) rfl (by simp)
  have hmark : beforeCut (as ++ [.flusher n]) = beforeCut as := by
    rw [beforeCut_snoc]
    rfl
  have hold : ∀ {i c}, .cutReturn i c ∈ as ++ [.flusher n] →
      .cutReturn i c ∈ as := by simp
  cases hs with
  | sampleCut hpc =>
      exact hgrow Or.inr (by intro hcase; cases hcase)
        (by intro c hcase; cases hcase) rfl rfl
  | @serveCut closing hpc hbuf =>
      refine hgrow (fun _ => .inl (by rw [hpc]; rfl)) (fun _ => .inr ?_)
        (by intro c hcase; cases hcase) rfl rfl
      refine hall (hsim'.pending_nil hbuf rfl) ?_
      rw [Log.exec_accepted hexec, hacc, List.length_append]
      omega
  -- the segment is closed, and what is flushed is in closed segments
  | @syncDir why file hpc =>
      cases why with
      | batch e =>
          exact hgrow (by intro hcase; cases hcase)
            (by intro hcase; cases hcase) (by intro c hcase; cases hcase)
            rfl rfl
      | cut =>
          have hd : m.pc.drained = true := by rw [hpc]; rfl
          refine hgrow (fun _ => .inl (by rw [hpc]; rfl))
            (fun _ => .inl hd) ?_ rfl rfl
          intro _ hcase
          cases hcase
          refine .inr ⟨Nat.le_of_eq hsim.id.symm, ?_⟩
          rw [hsim'.through_rotated rfl rfl]
          exact Nat.le_trans (h.drained hd) (Log.exec_flushed hexec).length_le
  -- the answer: it is for the caller that waits, and above all earlier ones
  | @finish closed hpc =>
      have hs : m.pc.serves = some closed := by rw [hpc]; rfl
      have hwaiting := (h.requested (h.wants
        (FlusherPc.cutting_of_serves hs))).2
      have hlt : closed < log.activeId := by
        have := hsim.rotated closed (FlusherPc.rotated_of_serves hs)
        rw [hsim.id] at this
        omega
      have hactive : log.activeId ≤ log'.activeId := Log.exec_activeId hexec
      refine ⟨(by intro hcase; cases hcase), (by intro hcase; cases hcase),
        (by intro hcase; cases hcase), (by intro c hcase; cases hcase), ?_,
        fun i c₀ hmem => ⟨?_, (by intro c hcase; cases hcase), ?_⟩⟩
      · intro _ hcase
        cases hcase
        rw [hmark, Log.exec_through hexec hlt]
        exact ⟨hwaiting, h.served closed hs, Nat.lt_of_lt_of_le hlt hactive⟩
      · exact Nat.lt_of_lt_of_le (h.fresh i c₀ (hold hmem)).1 hactive
      · intro _ hcase
        cases hcase
        exact (h.fresh i c₀ (hold hmem)).2.1 closed hs
  | @sync why hpc =>
      cases why <;> exact hgrow (by rw [hpc]; exact .inl)
        (by rw [hpc]; exact .inl) (by rw [hpc]; exact fun _ => .inl) rfl rfl
  | @create why disk' hpc =>
      cases why <;> exact hgrow (by rw [hpc]; exact .inl)
        (by rw [hpc]; exact .inl) (by rw [hpc]; exact fun _ => .inl) rfl rfl
  | @setFile why closed hpc =>
      cases why <;> exact hgrow (by rw [hpc]; exact .inl)
        (by rw [hpc]; exact .inl) (by rw [hpc]; exact fun _ => .inl) rfl rfl
  | @store why closed hpc =>
      cases why with
      | batch e =>
          exact hgrow (by intro hcase; cases hcase)
            (by intro hcase; cases hcase) (by intro c hcase; cases hcase)
            rfl rfl
      | cut =>
          exact hgrow (by rw [hpc]; exact .inl) (by intro hcase; cases hcase)
            (by rw [hpc]; exact fun _ => .inl) rfl rfl
  | _ =>
      exact hgrow (by intro hcase; cases hcase) (by intro hcase; cases hcase)
        (by intro c hcase; cases hcase) rfl rfl

/-- Every step keeps the handshake. Who does not use the cut leaves request
and answer alone. Taking the lock finds nobody waiting; a request begins to
count anew; and a return hands over the answer there is, which was the only
one. -/
theorem step (h : CutInv as log m) (hacc : log.accepted = acceptedIn as)
    (hsim : Sim base log hand rest disk m)
    (hexec : exec Log.move moves log = some log')
    (hsim' : Sim base log' hand' rest' disk' m') {a : Action}
    (hs : Wal.step cfg a (disk, m) = some (disk', m')) :
    CutInv (as ++ [a]) log' m' := by
  have hother : (∀ n, a ≠ .flusher n) → a.usesCut = false →
      CutInv (as ++ [a]) log' m' := by
    intro ha hcut
    obtain ⟨hk, -, hsame⟩ := step_keeps ha hs
    have hpc : m'.pc = m.pc := hk.pc
    refine h.grow m' hsim hexec (by cases a <;> first | rfl | cases hcut)
      (by rintro i c rfl; cases hcut) ?_ ?_ ?_ (hsame hcut).1 (hsame hcut).2
    · exact fun hc => .inl (hpc ▸ hc)
    · exact fun hd => .inl (hpc ▸ hd)
    · exact fun c hc => .inl (hpc ▸ hc)
  cases a with
  | flusher n => exact h.flusher hacc hsim hexec hsim' (.of_step hs)
  -- nobody has the lock, so there is no request and no answer
  | cutLock caller =>
      simp only [Wal.step] at hs
      split at hs <;> cases hs
      rename_i hfree
      obtain ⟨hreq, hclosed, hpc⟩ :=
        h.quiet (by rw [Shared.waiting, hfree]; rfl)
      refine h.of_quiet hexec hpc hclosed (fun hr => ?_) (by simp)
      rw [hreq] at hr
      cases hr
  | cutRequest caller =>
      simp only [Wal.step] at hs
      split at hs <;> cases hs
      rename_i hlocked
      obtain ⟨-, -, hpc⟩ := h.quiet (by rw [Shared.waiting, hlocked]; rfl)
      exact h.of_quiet hexec hpc rfl (fun _ => rfl) (by simp)
  | cutReturn caller closed =>
      simp only [Wal.step] at hs
      split at hs <;> cases hs
      rename_i hcond
      -- answered, so there is no request, and nothing is being served
      have hreq : m.shared.cut.requested = false := by
        by_contra hr
        have := (h.requested (by simpa using hr)).1
        rw [hcond.2] at this
        cases this
      have hpc : m.pc.cutting = false := by
        by_contra hc
        have := h.wants (by simpa using hc)
        rw [hreq] at this
        cases this
      refine h.of_quiet hexec hpc rfl (fun hr => ?_) ?_
      · rw [hreq] at hr
        cases hr
      · intro i c hcase
        cases hcase
        exact (h.answered _ hcond.2).2.2
  | _ => exact hother (by simp) rfl

end CutInv

-- ================================================================ over runs

section Runs

variable {cfg : WalConfig} {before : Disk} {as : List Action} {disk : Disk}
  {m : Machine}

/-- The log behind a run from `Wal::open`, with its cuts. -/
theorem FromOpen.cuts (hrun : FromOpen cfg before as disk m) :
    ∃ log hand rest, log.accepted = acceptedIn as
      ∧ log.first = firstId before
      ∧ Sim before.length log hand rest disk m ∧ CutInv as log m := by
  refine Run.invariant
    (P := fun as s => ∃ log hand rest, log.accepted = acceptedIn as
      ∧ log.first = firstId before
      ∧ Sim before.length log hand rest s.1 s.2 ∧ CutInv as log s.2)
    ⟨_, [], [], rfl, rfl, .start before _ rfl, .start _ _ _⟩ ?_ hrun
  rintro as ⟨disk, m⟩ a ⟨disk', m'⟩ -
    ⟨log, hand, rest, hacc, hfirst, h, hcut⟩ hs
  obtain ⟨moves, log', hexec, happ, hand', rest', h'⟩ := h.step hs
  refine ⟨log', hand', rest', ?_, ?_, h', hcut.step hacc h hexec h' hs⟩
  · rw [Log.exec_accepted hexec, hacc, happ, acceptedIn_append,
      acceptedIn_singleton]
  · rw [Log.exec_first hexec, hfirst]

/-- While a caller waits for its answer nobody else makes a request: it has
the lock from its request to its return, so what was accepted before the
latest request stays what it was at its own. -/
theorem waiting_run {s s' : Disk × Machine} {i : Nat}
    (h : s.2.shared.serial = some ⟨i, true⟩)
    (hrun : Run (step cfg) s as s') (hno : ∀ c, .cutReturn i c ∉ as) :
    s'.2.shared.serial = some ⟨i, true⟩
      ∧ ∀ t, beforeCut (t ++ as) = beforeCut t := by
  induction hrun with
  | nil => exact ⟨h, fun t => by rw [List.append_nil]⟩
  | @snoc as s₁ s₂ a _ hs ih =>
      obtain ⟨hserial, hmark⟩ := ih fun c hc => hno c (by simp [hc])
      have hback : ∀ t, a.isRequest = false →
          beforeCut (t ++ (as ++ [a])) = beforeCut t := by
        intro t ha
        rw [← List.append_assoc, beforeCut_snoc, if_neg (by simp [ha]), hmark]
      cases a with
      | flusher n =>
          have hs' : FlusherStep cfg n s₁.1 s₁.2 s₂.1 s₂.2 := .of_step hs
          refine ⟨?_, fun t => hback t rfl⟩
          obtain ⟨d₂, m₂⟩ := s₂
          cases hs' <;> exact hserial
      | cutLock caller =>
          simp only [step, hserial] at hs
          cases hs
      | cutRequest caller =>
          simp [step, hserial] at hs
      | cutReturn caller closed =>
          simp only [step, hserial] at hs
          split at hs
          · rename_i hcond
            obtain ⟨hcaller, -⟩ := hcond
            cases hcaller
            exact absurd (List.mem_append_right _ (List.mem_singleton_self _))
              (hno closed)
          · cases hs
      | _ =>
          obtain ⟨-, -, hsame⟩ := step_keeps (by simp) hs
          exact ⟨(hsame rfl).2.trans hserial, fun t => hback t rfl⟩

/-- The log behind a run in which a cut returned `c`: the segments up to
`c` hold what was accepted before the latest request, and nothing
accepted since the return. -/
theorem FromOpen.returned {t t' : List Action} {i c : Nat}
    (hrun : FromOpen cfg before (t ++ .cutReturn i c :: t') disk m) :
    ∃ log hand rest,
      log.accepted = acceptedIn (t ++ .cutReturn i c :: t')
      ∧ Sim before.length log hand rest disk m ∧ c < log.activeId
      ∧ (beforeCut t).length ≤ (log.through c).length
      ∧ log.through c <+: acceptedIn t := by
  obtain ⟨s₁, ht, hrest⟩ := Run.split hrun
  obtain ⟨s₂, hs, -⟩ := hrest.uncons
  obtain ⟨log₁, hand₁, rest₁, hacc₁, -, hsim₁, hcut₁⟩ := FromOpen.cuts ht
  obtain ⟨moves, log, hand, rest, hexec, happ, hsim⟩ :=
    simulates hsim₁ hrest
  have hclosed : s₁.2.shared.cut.closed = some c := by
    simp only [step] at hs
    split at hs
    · rename_i hcond
      exact hcond.2
    · cases hs
  obtain ⟨-, hmark, hlt⟩ := hcut₁.answered c hclosed
  refine ⟨log, hand, rest, ?_, hsim,
    Nat.lt_of_lt_of_le hlt (Log.exec_activeId hexec), ?_, ?_⟩
  · rw [Log.exec_accepted hexec, hacc₁, happ, acceptedIn_append]
  · rwa [Log.exec_through hexec hlt]
  · rw [Log.exec_through hexec hlt, ← hacc₁]
    exact log₁.through_accepted c

/-- What was accepted before a request lies in the segments up to the one
the cut returned. At the return the latest request is the one in question,
so the segments up to the answer have as many records as there were accepted
then, and the record is one of them. -/
theorem FromOpen.before_cut {t₁ t₂ t₃ pre post : List Action} {i c lsn : Nat}
    {rec : WalRecord} (hno : ∀ c', .cutReturn i c' ∉ t₂)
    (hpre : t₁ = pre ++ .append rec (.ok lsn) :: post)
    (hne : rec.isEmpty = false)
    (hrun : FromOpen cfg before
      (t₁ ++ .cutRequest i :: (t₂ ++ .cutReturn i c :: t₃)) disk m) :
    ∃ f, LiesIn (disk.drop before.length) lsn rec f ∧ f.id ≤ c := by
  have hcat : t₁ ++ .cutRequest i :: (t₂ ++ .cutReturn i c :: t₃)
      = (t₁ ++ [.cutRequest i] ++ t₂) ++ .cutReturn i c :: t₃ := by simp
  -- the mark of the return is the request
  have hmark : beforeCut (t₁ ++ [.cutRequest i] ++ t₂) = acceptedIn t₁ := by
    rw [hcat] at hrun
    obtain ⟨s₂, hrun₂, -⟩ := Run.split hrun
    obtain ⟨s₁, hrun₁, hrest⟩ := Run.split hrun₂
    obtain ⟨s₀, -, hs⟩ := hrun₁.last
    have hserial : s₁.2.shared.serial = some ⟨i, true⟩ := by
      simp only [step] at hs
      split at hs <;> cases hs
      rfl
    rw [(waiting_run hserial hrest hno).2, beforeCut_snoc]
    rfl
  have hrun₀ : FromOpen cfg before (pre ++ .append rec (.ok lsn)
      :: (post ++ .cutRequest i :: (t₂ ++ .cutReturn i c :: t₃))) disk m := by
    rw [hpre, List.append_assoc] at hrun
    exact hrun
  have hlsn := hrun₀.lsn_eq
  rw [acceptedIn_append, acceptedIn_singleton, accepted_ok hne] at hlsn
  rw [hcat] at hrun
  obtain ⟨log, hand, rest, hacc, hsim, hlt, hle, -⟩ := FromOpen.returned hrun
  have ht₁ : acceptedIn t₁ = acceptedIn pre ++ rec :: acceptedIn post := by
    rw [hpre, List.append_cons, acceptedIn_append, acceptedIn_append,
      acceptedIn_singleton, accepted_ok hne]
    simp
  have hall : log.accepted = acceptedIn pre
      ++ rec :: (acceptedIn post ++ acceptedIn (.cutRequest i :: t₂)
        ++ acceptedIn (.cutReturn i c :: t₃)) := by
    rw [hacc, acceptedIn_append, List.append_assoc, acceptedIn_append, ht₁]
    simp
  obtain ⟨f, hf, hid⟩ := hsim.liesIn_of_through hlt hall (by
    rw [hmark, ht₁, List.length_append, List.length_cons] at hle
    omega)
  rw [hlsn]
  exact ⟨f, hf, hid⟩

/-- What was accepted after a return lies behind the segment it
returned. -/
theorem FromOpen.after_cut {t pre post : List Action} {i c lsn : Nat}
    {rec : WalRecord} {f : LogFile} (hne : rec.isEmpty = false)
    (hrun : FromOpen cfg before
      (t ++ .cutReturn i c :: (pre ++ .append rec (.ok lsn) :: post)) disk m)
    (hf : LiesIn (disk.drop before.length) lsn rec f) : c < f.id := by
  by_contra hid
  obtain ⟨log, hand, rest, -, hsim, hlt, -, hpre⟩ := FromOpen.returned hrun
  have hle := hsim.le_through_of_liesIn hlt hf (by omega)
  have hrun₀ : FromOpen cfg before
      ((t ++ .cutReturn i c :: pre) ++ .append rec (.ok lsn) :: post)
      disk m := by
    rw [List.append_assoc]
    exact hrun
  have hlsn := FromOpen.lsn_eq hrun₀
  have hsub := hpre.length_le
  obtain ⟨more, hmore⟩ := hpre
  have hlen := congrArg (fun recs => (logBytes recs).length) hmore
  have hpos := recordBytes_length_pos rec
  simp only [acceptedIn_append, acceptedIn_singleton, accepted_ok hne,
    logBytes_append, logBytes_singleton, List.length_append] at hlsn hlen
  omega

/-- A record whose LSN is within the files lies in one. -/
theorem FromOpen.lies {pre post : List Action} {lsn : Nat} {rec : WalRecord}
    (hne : rec.isEmpty = false)
    (hrun : FromOpen cfg before (pre ++ .append rec (.ok lsn) :: post) disk m)
    (hle : lsn ≤ (fileBytes (disk.drop before.length)).length) :
    ∃ f, LiesIn (disk.drop before.length) lsn rec f := by
  have hlsn := FromOpen.lsn_eq hrun
  rw [acceptedIn_append, acceptedIn_singleton, accepted_ok hne] at hlsn
  obtain ⟨log, hand, rest, hacc, -, hsim⟩ := FromOpen.sim hrun
  have hall : log.accepted = acceptedIn pre ++ rec :: acceptedIn post := by
    rw [hacc, List.append_cons, acceptedIn_append, acceptedIn_append,
      acceptedIn_singleton, accepted_ok hne]
    simp
  rw [hlsn] at hle ⊢
  exact hsim.liesIn_of_written hall hle

/-- No cut is answered with the result of an earlier one. -/
theorem FromOpen.cuts_increase {t₁ t₂ t₃ : List Action} {i j c c' : Nat}
    (hrun : FromOpen cfg before
      (t₁ ++ .cutReturn i c :: (t₂ ++ .cutReturn j c' :: t₃)) disk m) :
    c < c' := by
  have hcat : t₁ ++ .cutReturn i c :: (t₂ ++ .cutReturn j c' :: t₃)
      = (t₁ ++ .cutReturn i c :: t₂) ++ .cutReturn j c' :: t₃ := by simp
  rw [hcat] at hrun
  obtain ⟨s₁, ht, hrest⟩ := Run.split hrun
  obtain ⟨s₂, hs, -⟩ := hrest.uncons
  obtain ⟨log, hand, rest, -, -, -, hcut⟩ := FromOpen.cuts ht
  simp only [step] at hs
  split at hs
  · rename_i hcond
    exact (hcut.fresh i c (by simp)).2.2 c' hcond.2
  · cases hs

end Runs

end Tsdb.Wal
