import UltrafastFeed.Lib.Ledger
import UltrafastFeed.Pcap.Replay

/-!
# Pcap — Handles

A `PcapReader` over its whole life: every sequence of calls, then the
destructor. A stream that `fopen` returns is known by its number, and the
session logs what is done with each, so that a stream that is closed
twice, used after it was closed or never closed shows in the log.

`Session.reader` forgets the log; what is left computes what the reader
of the other modules computes. `open` is the interesting call: it assigns
`file_` before it looks at the old value, so a stream that was open is
out of reach from then on, and a failing `fopen` returns before the
counters are reset.
-/

namespace UltrafastFeed.Pcap

open Lib.Endian Lib.ByteFile Lib.Ledger

/-! ## The model -/

/-- What is done with the `h`-th stream that `fopen` returned. A chain of
`fread`s joined by `||` is one `access`. -/
inductive FileOp where
  | fopen (h : Nat)
  | access (h : Nat)
  | fclose (h : Nat)
  deriving DecidableEq, Repr

def FileOp.event : FileOp → Event Nat
  | .fopen h => .acquire h []
  | .access h => .use h
  | .fclose h => .release h

structure Session where
  /-- `file_`: the number of the stream, and the stream. -/
  file : Option (Nat × InFile)
  totalEvents : UInt64
  eventsRead : UInt64
  /-- How many streams `fopen` has returned. -/
  opened : Nat
  log : List FileOp
  deriving DecidableEq, Repr

def Session.fresh : Session := ⟨none, 0, 0, 0, []⟩

/-- The reader of the session. -/
def Session.reader (s : Session) : PcapReader :=
  ⟨s.file.map Prod.snd, s.totalEvents, s.eventsRead⟩

def Session.isOpen (s : Session) : Bool := s.file.isSome

/-- The stream `h`, which `file_` points to, is read or moved to `f`. -/
def Session.touch (s : Session) (h : Nat) (f : InFile) : Session :=
  { s with file := some (h, f), log := s.log ++ [.access h] }

/-- `close`. -/
def Session.close (s : Session) : Session :=
  match s.file with
  | none => { s with totalEvents := 0, eventsRead := 0 }
  | some (h, _) =>
      { s with file := none, totalEvents := 0, eventsRead := 0, log := s.log ++ [.fclose h] }

/-- `open`. `found` is what is found at the path, `none` when `fopen`
fails. -/
def Session.open (s : Session) (found : Option (List UInt8)) : Session × Bool :=
  match found with
  | none => ({ s with file := none }, false)
  | some bs =>
      let h := s.opened
      let s' : Session := { s with opened := h + 1, log := s.log ++ [.fopen h] }
      match (InFile.open bs).freads [8, 4, 4, 8] with
      | (some [magic, version, _, count], f) =>
          if toU64 magic ≠ kMagic ∨ toU32 version ≠ kVersion then
            ((s'.touch h f).close, false)
          else ({ s'.touch h f with totalEvents := toU64 count, eventsRead := 0 }, true)
      | (_, f) => ((s'.touch h f).close, false)

/-- `next`. -/
def Session.next (s : Session) : Option FeedEvent × Session :=
  match s.file with
  | none => (none, s)
  | some (h, f) =>
      if s.totalEvents ≤ s.eventsRead then (none, s)
      else
        match f.freads recordSizes with
        | (none, g) => (none, s.touch h g)
        | (some fields, g) =>
            (some (decodeFields fields), { s.touch h g with eventsRead := s.eventsRead + 1 })

/-- `rewind`. -/
def Session.rewind (s : Session) : Bool × Session :=
  match s.file with
  | none => (false, s)
  | some (h, f) => (true, { s.touch h (f.fseek (kCountOffset + 8)) with eventsRead := 0 })

/-- The `while` loop of `replay_at_rate`. -/
def Session.replayLoop (pace : Pace) (originInjectNs replayStartNs : UInt64) :
    Nat → Nat → Session → List Delivery × Session
  | 0, _, s => ([], s)
  | fuel + 1, ticks, s =>
      if s.eventsRead < s.totalEvents then
        match s.next with
        | (none, s') => ([], s')
        | (some ev, s') =>
            let rest := Session.replayLoop pace originInjectNs replayStartNs fuel (ticks + 1) s'
            (deliver pace originInjectNs replayStartNs ticks ev :: rest.1, rest.2)
      else ([], s)

/-- `replay_at_rate`. -/
def Session.replayAtRate (pace : Pace) (s : Session) : List Delivery × Session :=
  if s.file.isNone ∨ s.totalEvents = 0 then ([], s)
  else
    match s.rewind.2.next with
    | (none, s') => ([], s')
    | (some first, s') =>
        let replayStartNs := pace.clock 0
        let rest := s'.replayLoop pace first.injectNs replayStartNs s'.reader.left 1
        (⟨first, replayStartNs, none⟩ :: rest.1, rest.2)

inductive SessionCall where
  | open (found : Option (List UInt8))
  | next
  | rewind
  | replayAtRate (pace : Pace)
  | close

def Session.call (s : Session) : SessionCall → Session
  | .open found => (s.open found).1
  | .next => s.next.2
  | .rewind => s.rewind.2
  | .replayAtRate pace => (s.replayAtRate pace).2
  | .close => s.close

/-- The same calls on the reader alone. -/
def PcapReader.sessionCall (r : PcapReader) : SessionCall → PcapReader
  | .open found => (r.open found).1
  | .next => r.next.2
  | .rewind => r.rewind.2
  | .replayAtRate pace => (r.replayAtRate pace).2
  | .close => r.close

/-- A reader after the calls `cs`. -/
def Session.after (cs : List SessionCall) : Session := cs.foldl Session.call Session.fresh

/-- The log of a reader's whole life; the destructor calls `close`. -/
def lifeLog (cs : List SessionCall) : List FileOp := (Session.after cs).close.log

/-! ## The session is the reader -/

variable {s s' : Session}

theorem Session.reader_close (s : Session) : s.close.reader = s.reader.close := by
  rw [Session.close]
  split
  · rename_i hf
    simp [Session.reader, PcapReader.close, hf]
  · rfl

/-- What `open` does: a missing file takes `file_` away and nothing else, a
malformed one is opened, read and closed, a valid one stays open. -/
theorem Session.open_cases (s : Session) (found : Option (List UInt8)) :
    s.open found = ({ s with file := none }, false) ∨
    s.open found = (⟨none, 0, 0, s.opened + 1,
      s.log ++ [.fopen s.opened, .access s.opened, .fclose s.opened]⟩, false) ∨
    ∃ f n, s.open found = (⟨some (s.opened, f), n, 0, s.opened + 1,
      s.log ++ [.fopen s.opened, .access s.opened]⟩, true) := by
  cases found with
  | none => exact .inl rfl
  | some bs =>
      right
      rw [Session.open]
      dsimp only
      split
      · split
        · left
          simp [Session.touch, Session.close]
        · right
          rename_i count f _ _
          exact ⟨f, toU64 count, by simp [Session.touch]⟩
      · left
        simp [Session.touch, Session.close]

theorem Session.open_false {found : Option (List UInt8)} (h : (s.open found).2 = false) :
    (s.open found).1.file = none := by
  rcases s.open_cases found with ho | ho | ⟨f, n, ho⟩
  · rw [ho]
  · rw [ho]
  · rw [ho] at h
    cases h

theorem Session.reader_open (s : Session) (found : Option (List UInt8)) :
    ((s.open found).1.reader, (s.open found).2) = s.reader.open found := by
  cases found with
  | none => rfl
  | some bs =>
      rw [Session.open, PcapReader.open]
      dsimp only
      split
      · rename_i hread
        rw [hread]
        dsimp only
        split
        · rw [Session.reader_close]
          rfl
        · rfl
      · rename_i hshort hread₀
        rw [Session.reader_close]
        split
        · rename_i hread
          rw [hread₀] at hread
          cases hread
          exact (hshort _ _ _ _ rfl).elim
        · rfl

theorem Session.reader_next (s : Session) :
    (s.next.1, s.next.2.reader) = s.reader.next := by
  obtain ⟨_ | ⟨h, f⟩, total, read, opened, log⟩ := s
  · rfl
  · change _ = PcapReader.next ⟨some f, total, read⟩
    rw [Session.next, PcapReader.next]
    dsimp only
    split
    · rfl
    · cases f.freads recordSizes with
      | mk fields g => cases fields <;> rfl

theorem Session.reader_rewind (s : Session) :
    (s.rewind.1, s.rewind.2.reader) = s.reader.rewind := by
  obtain ⟨_ | ⟨h, f⟩, total, read, opened, log⟩ := s
  · rfl
  · rfl

theorem Session.reader_replayLoop (pace : Pace) (origin start : UInt64) (fuel ticks : Nat)
    (s : Session) :
    ((s.replayLoop pace origin start fuel ticks).1,
      (s.replayLoop pace origin start fuel ticks).2.reader) =
        Pcap.replayLoop pace origin start fuel ticks s.reader := by
  induction fuel generalizing ticks s with
  | zero => rfl
  | succ fuel ih =>
      rw [Session.replayLoop, Pcap.replayLoop, ← s.reader_next]
      by_cases hguard : s.eventsRead < s.totalEvents
      · rw [if_pos hguard, if_pos (show s.reader.eventsRead < s.reader.totalEvents from hguard)]
        cases hn : s.next with
        | mk e s' =>
            cases e with
            | none => rfl
            | some ev =>
                dsimp only
                rw [← ih]
                rfl
      · rw [if_neg hguard,
          if_neg (show ¬ s.reader.eventsRead < s.reader.totalEvents from hguard)]

/-- **A replay of the session is a replay of its reader.** -/
theorem Session.reader_replayAtRate (pace : Pace) (s : Session) :
    ((s.replayAtRate pace).1, (s.replayAtRate pace).2.reader) = s.reader.replayAtRate pace := by
  have hrewind : s.reader.rewind.2 = s.rewind.2.reader :=
    (congrArg Prod.snd s.reader_rewind).symm
  have hguard : (s.reader.file.isNone ∨ s.reader.totalEvents = 0) ↔
      (s.file.isNone ∨ s.totalEvents = 0) := by
    simp [Session.reader]
  rw [Session.replayAtRate, PcapReader.replayAtRate, hrewind, ← Session.reader_next]
  by_cases hg : s.file.isNone ∨ s.totalEvents = 0
  · rw [if_pos hg, if_pos (hguard.mpr hg)]
  · rw [if_neg hg, if_neg (fun h => hg (hguard.mp h))]
    cases hn : s.rewind.2.next with
    | mk e s' =>
        cases e with
        | none => rfl
        | some ev =>
            dsimp only
            rw [← Session.reader_replayLoop]

theorem Session.reader_call (s : Session) (k : SessionCall) :
    (s.call k).reader = s.reader.sessionCall k := by
  cases k with
  | «open» found => exact congrArg Prod.fst (s.reader_open found)
  | next => exact congrArg Prod.snd s.reader_next
  | rewind => exact congrArg Prod.snd s.reader_rewind
  | replayAtRate pace => exact congrArg Prod.snd (s.reader_replayAtRate pace)
  | close => exact s.reader_close

/-- **The log is all a session adds**: without it, every sequence of calls
leaves the reader of the other modules. -/
theorem Session.reader_after (cs : List SessionCall) :
    (Session.after cs).reader = cs.foldl PcapReader.sessionCall PcapReader.fresh := by
  induction cs using List.reverseRecOn with
  | nil => rfl
  | append_singleton cs k ih =>
      rw [Session.after, List.foldl_append, List.foldl_append]
      exact (Session.reader_call _ k).trans (congrArg (PcapReader.sessionCall · k) ih)

/-! ## What a call does to the streams -/

/-- From `s` to `s'` the open stream is read or moved, and nothing is
opened or closed. -/
inductive Session.Uses (s : Session) : Session → Prop where
  | closed (hfile : s.file = none) : Uses s s
  | stream {s' : Session} {h : Nat} {f f' : InFile} (n : Nat)
      (hfile : s.file = some (h, f)) (hfile' : s'.file = some (h, f'))
      (hopened : s'.opened = s.opened)
      (hlog : s'.log = s.log ++ List.replicate n (.access h)) : Uses s s'

theorem Session.Uses.refl (s : Session) : s.Uses s := by
  cases hf : s.file with
  | none => exact .closed hf
  | some file => exact .stream 0 hf hf rfl (by simp)

theorem Session.Uses.trans {s'' : Session} (h : s.Uses s') (h' : s'.Uses s'') :
    s.Uses s'' := by
  cases h with
  | closed _ => exact h'
  | stream n hfile hfile' hopened hlog =>
      cases h' with
      | closed hnone =>
          rw [hfile'] at hnone
          cases hnone
      | stream m hfile₂ hfile₂' hopened₂ hlog₂ =>
          rw [hfile'] at hfile₂
          cases hfile₂
          refine .stream (n + m) hfile hfile₂' (hopened₂.trans hopened) ?_
          rw [hlog₂, hlog, List.append_assoc, List.replicate_append_replicate]

theorem Session.uses_next (s : Session) : s.Uses s.next.2 := by
  obtain ⟨_ | ⟨h, f⟩, total, read, opened, log⟩ := s
  · exact .refl _
  · rw [Session.next]
    dsimp only
    split
    · exact .refl _
    · split
      · exact .stream 1 rfl rfl rfl rfl
      · exact .stream 1 rfl rfl rfl rfl

theorem Session.uses_rewind (s : Session) : s.Uses s.rewind.2 := by
  obtain ⟨_ | ⟨h, f⟩, total, read, opened, log⟩ := s
  · exact .refl _
  · exact .stream 1 rfl rfl rfl rfl

theorem Session.uses_replayLoop (pace : Pace) (origin start : UInt64) (fuel ticks : Nat)
    (s : Session) : s.Uses (s.replayLoop pace origin start fuel ticks).2 := by
  induction fuel generalizing ticks s with
  | zero => exact .refl s
  | succ fuel ih =>
      have huses := s.uses_next
      rw [Session.replayLoop]
      split
      · split
        · rename_i hn
          rw [hn] at huses
          exact huses
        · rename_i hn
          rw [hn] at huses
          exact huses.trans (ih _ _)
      · exact .refl s

theorem Session.uses_replayAtRate (pace : Pace) (s : Session) :
    s.Uses (s.replayAtRate pace).2 := by
  have huses := s.uses_rewind.trans s.rewind.2.uses_next
  rw [Session.replayAtRate]
  split
  · exact .refl s
  · split
    · rename_i hn
      rw [hn] at huses
      exact huses
    · rename_i hn
      rw [hn] at huses
      exact huses.trans (Session.uses_replayLoop _ _ _ _ _ _)

/-- Everything a call can do to the streams and the counters. -/
inductive Session.Effect (s : Session) : SessionCall → Session → Prop where
  | uses {k : SessionCall} {s' : Session} (huses : s.Uses s') : Effect s k s'
  | close : Effect s .close s.close
  | missing (found : Option (List UInt8)) : Effect s (.open found) { s with file := none }
  | refused (found : Option (List UInt8)) :
      Effect s (.open found) ⟨none, 0, 0, s.opened + 1,
        s.log ++ [.fopen s.opened, .access s.opened, .fclose s.opened]⟩
  | accepted (found : Option (List UInt8)) (f : InFile) (n : UInt64) :
      Effect s (.open found) ⟨some (s.opened, f), n, 0, s.opened + 1,
        s.log ++ [.fopen s.opened, .access s.opened]⟩

theorem Session.call_effect (s : Session) (k : SessionCall) : s.Effect k (s.call k) := by
  cases k with
  | «open» found =>
      rw [Session.call]
      rcases s.open_cases found with h | h | ⟨f, n, h⟩
      · rw [h]
        exact .missing found
      · rw [h]
        exact .refused found
      · rw [h]
        exact .accepted found f n
  | next => exact .uses s.uses_next
  | rewind => exact .uses s.uses_rewind
  | replayAtRate pace => exact .uses (s.uses_replayAtRate pace)
  | close => exact .close

theorem Session.after_concat (cs : List SessionCall) (k : SessionCall) :
    Session.after (cs ++ [k]) = (Session.after cs).call k := by
  rw [Session.after, List.foldl_append]
  rfl

/-- What every call keeps holds of every reader. -/
theorem Session.after_invariant {I : Session → Prop} (h₀ : I Session.fresh)
    (hstep : ∀ s k s', s.Effect k s' → I s → I s') (cs : List SessionCall) :
    I (Session.after cs) := by
  induction cs using List.reverseRecOn with
  | nil => exact h₀
  | append_singleton cs k ih =>
      rw [Session.after_concat]
      exact hstep _ k _ (Session.call_effect _ k) ih

/-! ## Streams are numbered -/

/-- `fopen` returns the streams `0, 1, …`, each once; only such a stream
is closed, and the one that is open is not. -/
structure Session.Numbered (s : Session) : Prop where
  fopens : ∀ h, s.log.count (.fopen h) = if h < s.opened then 1 else 0
  closes : ∀ h, .fclose h ∈ s.log → h < s.opened
  current : ∀ h f, s.file = some (h, f) → h < s.opened ∧ .fclose h ∉ s.log

theorem Session.numbered_fresh : Session.fresh.Numbered where
  fopens h := by simp [Session.fresh]
  closes h := by simp [Session.fresh]
  current h f := by simp [Session.fresh]

/-- The next `fopen` has the next number. -/
theorem Session.count_fopen {log tail : List FileOp} {n : Nat}
    (hlog : ∀ h, log.count (.fopen h) = if h < n then 1 else 0)
    (htail : ∀ h, .fopen h ∉ tail) (i : Nat) :
    (log ++ .fopen n :: tail).count (.fopen i) = if i < n + 1 then 1 else 0 := by
  rw [List.count_append, List.count_cons, List.count_eq_zero_of_not_mem (htail i), hlog i]
  by_cases hi : n = i
  · simp [hi]
  · have hlt : i < n + 1 ↔ i < n := by omega
    simp [hi, hlt]

theorem Session.Numbered.effect {k : SessionCall} (he : s.Effect k s') (h : s.Numbered) :
    s'.Numbered := by
  obtain ⟨hfopens, hcloses, hcurrent⟩ := h
  cases he with
  | uses huses =>
      cases huses with
      | closed _ => exact ⟨hfopens, hcloses, hcurrent⟩
      | stream n hfile hfile' hopened hlog =>
          obtain ⟨hlt, hopen⟩ := hcurrent _ _ hfile
          refine ⟨fun i => ?_, fun i => ?_, fun i f hi => ?_⟩
          · simp [hlog, hopened, hfopens i, List.count_replicate]
          · simpa [hlog, hopened] using hcloses i
          · rw [hfile'] at hi
            cases hi
            simp [hlog, hopened, hlt, hopen]
  | close =>
      rw [Session.close]
      split
      · rename_i hfile
        exact ⟨hfopens, hcloses, hcurrent⟩
      · rename_i i f hfile
        obtain ⟨hlt, -⟩ := hcurrent _ _ hfile
        refine ⟨fun j => ?_, fun j hj => ?_, fun j f hj => by cases hj⟩
        · simp [hfopens j]
        · simp only [List.mem_append, List.mem_singleton, FileOp.fclose.injEq] at hj
          rcases hj with hj | rfl
          · exact hcloses j hj
          · exact hlt
  | missing found => exact ⟨hfopens, hcloses, fun i f hi => by cases hi⟩
  | refused found =>
      refine ⟨Session.count_fopen hfopens (by simp), fun i hi => ?_, fun i f hi => by cases hi⟩
      simp only [List.mem_append, List.mem_cons, FileOp.fclose.injEq, List.not_mem_nil,
        reduceCtorEq, false_or, or_false] at hi
      rcases hi with hi | rfl
      · exact Nat.lt_succ_of_lt (hcloses i hi)
      · exact Nat.lt_succ_self _
  | accepted found f n =>
      have hclosed : ∀ i, .fclose i ∈ s.log ++ [.fopen s.opened, .access s.opened] →
          i < s.opened := by
        intro i hi
        exact hcloses i (by simpa using hi)
      refine ⟨Session.count_fopen hfopens (by simp),
        fun i hi => Nat.lt_succ_of_lt (hclosed i hi), fun i g hi => ?_⟩
      cases hi
      exact ⟨Nat.lt_succ_self _, fun hi => Nat.lt_irrefl _ (hclosed _ hi)⟩

theorem Session.after_numbered (cs : List SessionCall) : (Session.after cs).Numbered :=
  Session.after_invariant Session.numbered_fresh (fun _ _ _ he h => h.effect he) cs

/-! ## A stream that is overwritten is lost -/

/-- The stream `h` was opened, is not closed, and `file_` does not point
to it. -/
structure Session.Lost (h : Nat) (s : Session) : Prop where
  opened : h < s.opened
  unclosed : .fclose h ∉ s.log
  unreachable : ∀ f, s.file ≠ some (h, f)

theorem Session.Lost.effect {h : Nat} {k : SessionCall} (he : s.Effect k s')
    (hl : s.Lost h) : s'.Lost h := by
  obtain ⟨hopened, hunclosed, hunreachable⟩ := hl
  cases he with
  | uses huses =>
      cases huses with
      | closed _ => exact ⟨hopened, hunclosed, hunreachable⟩
      | stream n hfile hfile' hopened' hlog =>
          refine ⟨by rw [hopened']; exact hopened, by simp [hlog, hunclosed], fun f hf => ?_⟩
          rw [hfile'] at hf
          cases hf
          exact hunreachable _ hfile
  | close =>
      rw [Session.close]
      split
      · exact ⟨hopened, hunclosed, hunreachable⟩
      · rename_i i f hfile
        have hne : h ≠ i := by
          rintro rfl
          exact hunreachable f hfile
        exact ⟨hopened, by simp [hunclosed, hne], fun f hf => by cases hf⟩
  | missing found => exact ⟨hopened, hunclosed, fun f hf => by cases hf⟩
  | refused found =>
      have hne : h ≠ s.opened := Nat.ne_of_lt hopened
      exact ⟨Nat.lt_succ_of_lt hopened, by simp [hunclosed, hne], fun f hf => by cases hf⟩
  | accepted found f n =>
      refine ⟨Nat.lt_succ_of_lt hopened, by simp [hunclosed], fun g hg => ?_⟩
      cases hg
      exact Nat.lt_irrefl _ hopened

theorem Session.Lost.foldl {h : Nat} (hl : s.Lost h) (cs : List SessionCall) :
    (cs.foldl Session.call s).Lost h := by
  induction cs generalizing s with
  | nil => exact hl
  | cons k cs ih => exact ih (hl.effect (s.call_effect k))

/-- **`open` loses the stream that was open**, whatever it finds. -/
theorem Session.open_loses {h : Nat} {f : InFile} (hn : s.Numbered)
    (hfile : s.file = some (h, f)) (found : Option (List UInt8)) :
    (s.call (.open found)).Lost h := by
  obtain ⟨hlt, hunclosed⟩ := hn.current h f hfile
  have hne : h ≠ s.opened := Nat.ne_of_lt hlt
  rw [Session.call]
  rcases s.open_cases found with ho | ho | ⟨g, n, ho⟩
  · rw [ho]
    exact ⟨hlt, hunclosed, fun g hg => by cases hg⟩
  · rw [ho]
    exact ⟨Nat.lt_succ_of_lt hlt, by simp [hunclosed, hne], fun g hg => by cases hg⟩
  · rw [ho]
    refine ⟨Nat.lt_succ_of_lt hlt, by simp [hunclosed], fun g' hg => ?_⟩
    cases hg
    exact hne rfl

/-! ## A reader that is opened only while it is closed -/

/-- The ledger a session should have: the stream that is open. -/
def Session.held (s : Session) : List (Held Nat) :=
  s.file.toList.map fun file => ⟨file.1, []⟩

/-- The log accounts for the open stream and no other, and a closed
session counts nothing. -/
structure Session.Booked (s : Session) : Prop where
  ledger : Lib.Run.run (step FileOp.event) [] s.log = some s.held
  counters : s.file = none → s.totalEvents = 0 ∧ s.eventsRead = 0

theorem Session.booked_fresh : Session.fresh.Booked := ⟨rfl, fun _ => ⟨rfl, rfl⟩⟩

/-- The log goes on from the open stream. -/
theorem Session.Booked.append (h : s.Booked) {ops : List FileOp} {live : List (Held Nat)}
    (hops : Lib.Run.run (step FileOp.event) s.held ops = some live) :
    Lib.Run.run (step FileOp.event) [] (s.log ++ ops) = some live :=
  Lib.Run.run_append.mpr ⟨s.held, h.ledger, hops⟩

theorem run_accesses (h n : Nat) :
    Lib.Run.run (step FileOp.event) [⟨h, []⟩] (List.replicate n (.access h)) =
      some [⟨h, []⟩] := by
  induction n with
  | zero => rfl
  | succ n ih =>
      rw [List.replicate_succ, Lib.Run.run_cons]
      exact ⟨_, by simp [step, post, FileOp.event], ih⟩

theorem Session.Booked.close (h : s.Booked) : s.close.Booked ∧ s.close.file = none := by
  rw [Session.close]
  split
  · rename_i hfile
    refine ⟨⟨h.ledger, fun _ => ⟨rfl, rfl⟩⟩, hfile⟩
  · rename_i i f hfile
    refine ⟨⟨h.append ?_, fun _ => ⟨rfl, rfl⟩⟩, rfl⟩
    simp [Session.held, hfile, Lib.Run.run, step, post, FileOp.event]

theorem Session.Booked.effect {k : SessionCall} (he : s.Effect k s') (h : s.Booked)
    (hopen : ∀ found, k = .open found → s.file = none) : s'.Booked := by
  cases he with
  | uses huses =>
      cases huses with
      | closed _ => exact h
      | stream n hfile hfile' hopened hlog =>
          refine ⟨?_, fun hnone => ?_⟩
          · rw [hlog]
            apply h.append
            simp only [Session.held, hfile, hfile', Option.toList_some, List.map_cons,
              List.map_nil]
            exact run_accesses _ n
          · rw [hfile'] at hnone
            cases hnone
  | close => exact h.close.1
  | missing found =>
      have hnone := hopen found rfl
      refine ⟨?_, fun _ => h.counters hnone⟩
      have hledger := h.ledger
      rw [Session.held, hnone] at hledger
      exact hledger
  | refused found =>
      have hnone := hopen found rfl
      refine ⟨h.append ?_, fun _ => ⟨rfl, rfl⟩⟩
      simp [Session.held, hnone, Lib.Run.run, step, post, FileOp.event]
  | accepted found f n =>
      have hnone := hopen found rfl
      refine ⟨h.append ?_, fun hfile => by cases hfile⟩
      simp [Session.held, hnone, Lib.Run.run, step, post, FileOp.event]

/-- `open` is only called while the reader is closed. -/
def OpensClosed (cs : List SessionCall) : Prop :=
  ∀ ks found rest, cs = ks ++ .open found :: rest → (Session.after ks).isOpen = false

theorem OpensClosed.left {ks rest : List SessionCall} (h : OpensClosed (ks ++ rest)) :
    OpensClosed ks := by
  intro js found more hks
  apply h js found (more ++ rest)
  rw [hks, List.append_assoc, List.cons_append]

theorem Session.after_booked {cs : List SessionCall} (h : OpensClosed cs) :
    (Session.after cs).Booked := by
  induction cs using List.reverseRecOn with
  | nil => exact Session.booked_fresh
  | append_singleton cs k ih =>
      rw [Session.after_concat]
      apply (ih h.left).effect (Session.call_effect _ k)
      rintro found rfl
      simpa [Session.isOpen] using h cs found [] rfl

/-! ## The whole life of a reader -/

/-- Every stream is closed exactly once, none is used or closed after it
was closed, and a reader that is closed, as it is after an `open` that
fails, counts nothing. -/
structure Consistent (cs : List SessionCall) : Prop where
  closedOnce : ∀ h, .fopen h ∈ lifeLog cs → (lifeLog cs).count (.fclose h) = 1
  notAfterClose : ∀ pre op rest h, lifeLog cs = pre ++ op :: rest →
    op = .access h ∨ op = .fclose h → .fopen h ∈ pre ∧ .fclose h ∉ pre
  counters : ∀ ks rest, cs = ks ++ rest → (Session.after ks).isOpen = false →
    (Session.after ks).totalEvents = 0 ∧ (Session.after ks).eventsRead = 0
  failedOpen : ∀ ks found rest, cs = ks ++ .open found :: rest →
    ((Session.after ks).open found).2 = false →
      ((Session.after ks).open found).1.isOpen = false ∧
      ((Session.after ks).open found).1.totalEvents = 0 ∧
      ((Session.after ks).open found).1.eventsRead = 0

theorem countP_fopen (h : Nat) (log : List FileOp) :
    log.countP (fun op => acquires h op.event) = log.count (.fopen h) := by
  apply List.countP_congr
  intro op _
  cases op <;> simp [FileOp.event, acquires]

theorem countP_fclose (h : Nat) (log : List FileOp) :
    log.countP (fun op => releases h op.event) = log.count (.fclose h) := by
  apply List.countP_congr
  intro op _
  cases op <;> simp [FileOp.event, releases]

/-- The ledger's balance, in stdio terms. -/
theorem fopen_balance {log : List FileOp} {live : List (Held Nat)} (h : Nat)
    (hrun : Lib.Run.run (step FileOp.event) [] log = some live) :
    log.count (.fopen h) = (names live).count h + log.count (.fclose h) := by
  have hcount := run_count (r := h) hrun List.nodup_nil
  rw [countP_fopen, countP_fclose, names_nil, List.count_nil, Nat.zero_add] at hcount
  exact hcount

theorem OpensClosed.ledger_empty {cs : List SessionCall} (h : OpensClosed cs) :
    Lib.Run.run (step FileOp.event) [] (lifeLog cs) = some [] := by
  obtain ⟨hbooked, hnone⟩ := (Session.after_booked h).close
  have hledger := hbooked.ledger
  rw [Session.held, hnone] at hledger
  exact hledger

/-- `fopen` returns no stream twice. -/
theorem lifeLog_fopen_le (cs : List SessionCall) (h : Nat) :
    (lifeLog cs).count (.fopen h) ≤ 1 := by
  have hnum := (Session.after_numbered cs).effect .close
  rw [lifeLog, hnum.fopens h]
  split <;> omega

theorem OpensClosed.closedOnce {cs : List SessionCall} (hoc : OpensClosed cs) {h : Nat}
    (hmem : .fopen h ∈ lifeLog cs) : (lifeLog cs).count (.fclose h) = 1 := by
  have hbalance := fopen_balance h hoc.ledger_empty
  have hle := lifeLog_fopen_le cs h
  have hpos := List.count_pos_iff.mpr hmem
  rw [names_nil, List.count_nil] at hbalance
  omega

theorem OpensClosed.notAfterClose {cs : List SessionCall} (hoc : OpensClosed cs)
    {pre rest : List FileOp} {op : FileOp} {h : Nat} (hlog : lifeLog cs = pre ++ op :: rest)
    (hop : op = .access h ∨ op = .fclose h) : .fopen h ∈ pre ∧ .fclose h ∉ pre := by
  have hrun := hoc.ledger_empty
  have hle := lifeLog_fopen_le cs h
  rw [hlog] at hrun hle
  obtain ⟨mid, hmid, next, hnext, -⟩ := run_at hrun
  have hlive : h ∈ names mid := by
    rcases hop with rfl | rfl
    · exact (post_use.mp hnext).1
    · exact (post_release.mp hnext).1.1
  have hone := List.count_eq_one_of_mem (run_nodup hmid List.nodup_nil) hlive
  have hbalance := fopen_balance h hmid
  rw [List.count_append] at hle
  have hclosed : pre.count (.fclose h) = 0 := by omega
  exact ⟨List.count_pos_iff.mp (by omega), List.count_eq_zero.mp hclosed⟩

/-- A stream that is open when `open` is called is not closed by anyone. -/
theorem unclosed_of_reopened {ks : List SessionCall} {h : Nat} {f : InFile}
    (hfile : (Session.after ks).file = some (h, f)) (found : Option (List UInt8))
    (rest : List SessionCall) :
    .fopen h ∈ lifeLog (ks ++ .open found :: rest) ∧
      .fclose h ∉ lifeLog (ks ++ .open found :: rest) := by
  have hlost := (Session.open_loses (Session.after_numbered ks) hfile found).foldl rest
  have hafter : Session.after (ks ++ .open found :: rest) =
      rest.foldl Session.call ((Session.after ks).call (.open found)) := by
    rw [Session.after, List.foldl_append]
    rfl
  rw [← hafter] at hlost
  have hend := hlost.effect .close
  have hnum := (Session.after_numbered (ks ++ .open found :: rest)).effect .close
  have hcount := hnum.fopens h
  rw [if_pos hend.opened] at hcount
  exact ⟨List.count_pos_iff.mp (by rw [lifeLog]; omega), hend.unclosed⟩

/-- **The reader's streams and counters are consistent exactly when it is
never opened while it is open.** -/
theorem session_consistent_iff (cs : List SessionCall) : Consistent cs ↔ OpensClosed cs := by
  constructor
  · rintro hc ks found rest rfl
    cases hfile : (Session.after ks).file with
    | none => rw [Session.isOpen, hfile, Option.isSome_none]
    | some file =>
        obtain ⟨hfopen, hunclosed⟩ := unclosed_of_reopened hfile found rest
        have honce := hc.closedOnce file.1 hfopen
        rw [List.count_eq_zero_of_not_mem hunclosed] at honce
        cases honce
  · intro hoc
    refine ⟨fun h hmem => hoc.closedOnce hmem, fun pre op rest h hlog hop =>
      hoc.notAfterClose hlog hop, fun ks rest hcs hclosed => ?_,
      fun ks found rest hcs hfalse => ?_⟩
    · rw [hcs] at hoc
      apply (Session.after_booked hoc.left).counters
      simpa [Session.isOpen] using hclosed
    · have hnone := Session.open_false hfalse
      rw [hcs, List.append_cons] at hoc
      have hbooked := Session.after_booked hoc.left
      rw [Session.after_concat] at hbooked
      exact ⟨by rw [Session.isOpen, hnone, Option.isSome_none], hbooked.counters hnone⟩

/-- A file of one event, then a path where there is none. -/
def openThenMissing : List SessionCall :=
  [.open (some (header 1 ++ record {})), .open none]

/-- The second `open` fails and `total_events()` is still 1; the stream of
the first is not closed even by the destructor. -/
theorem openThenMissing_inconsistent :
    (Session.after openThenMissing).isOpen = false ∧
      (Session.after openThenMissing).totalEvents = 1 ∧
      lifeLog openThenMissing = [.fopen 0, .access 0] ∧ ¬ Consistent openThenMissing := by
  have hopened : Session.after openThenMissing = ⟨none, 1, 0, 1, [.fopen 0, .access 0]⟩ := by
    decide +kernel
  have hlog : lifeLog openThenMissing = [.fopen 0, .access 0] := by
    rw [lifeLog, hopened]
    rfl
  refine ⟨by rw [hopened]; rfl, by rw [hopened], hlog, fun hc => ?_⟩
  have honce := hc.closedOnce 0 (by simp [hlog])
  rw [hlog] at honce
  cases honce

end UltrafastFeed.Pcap
