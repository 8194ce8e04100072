import Mathlib.Algebra.Ring.Nat
import Mathlib.Data.List.Basic
import Mathlib.Tactic.Common

/-!
# ByteFile — a stdio stream on a byte array

A file being written is a JOURNAL of single-byte stores in program
order, replayed on the empty byte array, and a stream position. The
contents are the replay of the whole journal; the contents after a crash
are the replay of a prefix of it. A file being read is a byte array and
a position.

`fwrite` takes the outcome as an argument: the stream may put the whole
object or any proper prefix of it into the file. File offsets are
`long`s, so an object that would end past the largest one is refused.
-/

namespace Lib.ByteFile

/-- The largest file offset (`LONG_MAX`, 64-bit). -/
def maxOffset : Nat := 2 ^ 63 - 1

/-! ## Byte arrays -/

/-- Store one byte at offset `i`; a gap past the end is zero-filled. -/
def store (bs : List UInt8) (i : Nat) (b : UInt8) : List UInt8 :=
  if i < bs.length then bs.set i b
  else bs ++ List.replicate (i - bs.length) 0 ++ [b]

/-- Replay a journal of byte stores. -/
def replay : List UInt8 → List (Nat × UInt8) → List UInt8
  | bs, [] => bs
  | bs, w :: ws => replay (store bs w.1 w.2) ws

/-- The stores of a run of bytes, in ascending address order. -/
def stores : Nat → List UInt8 → List (Nat × UInt8)
  | _, [] => []
  | i, b :: bs => (i, b) :: stores (i + 1) bs

@[simp] theorem stores_length (i : Nat) (bs : List UInt8) :
    (stores i bs).length = bs.length := by
  induction bs generalizing i with
  | nil => rfl
  | cons b bs ih => simp [stores, ih]

theorem stores_append (i : Nat) (as bs : List UInt8) :
    stores i (as ++ bs) = stores i as ++ stores (i + as.length) bs := by
  induction as generalizing i with
  | nil => simp [stores]
  | cons a as ih =>
      rw [List.cons_append, stores, ih, stores, List.cons_append, List.length_cons,
        show i + 1 + as.length = i + (as.length + 1) from by omega]

theorem stores_take (k i : Nat) (bs : List UInt8) :
    (stores i bs).take k = stores i (bs.take k) := by
  induction bs generalizing i k with
  | nil => simp [stores]
  | cons b bs ih =>
      cases k with
      | zero => rfl
      | succ k => simp [stores, ih]

theorem replay_append (bs : List UInt8) (ws vs : List (Nat × UInt8)) :
    replay bs (ws ++ vs) = replay (replay bs ws) vs := by
  induction ws generalizing bs with
  | nil => rfl
  | cons w ws ih => rw [List.cons_append, replay, ih, replay]

/-- Stores at the end append. -/
theorem replay_stores_end (bs cs : List UInt8) :
    replay bs (stores bs.length cs) = bs ++ cs := by
  induction cs generalizing bs with
  | nil => simp [stores, replay]
  | cons c cs ih =>
      have hstore : store bs bs.length c = bs ++ [c] := by simp [store]
      rw [stores, replay, hstore]
      have hih := ih (bs ++ [c])
      rw [List.length_append, List.length_singleton] at hih
      rw [hih, List.append_assoc, List.singleton_append]

/-- Stores inside the array overwrite. -/
theorem replay_stores_inside (pre mid post cs : List UInt8)
    (h : cs.length = mid.length) :
    replay (pre ++ mid ++ post) (stores pre.length cs) = pre ++ cs ++ post := by
  induction cs generalizing pre mid with
  | nil =>
      have hm : mid = [] := List.length_eq_zero_iff.mp h.symm
      subst hm
      rfl
  | cons c cs ih =>
      cases mid with
      | nil => simp at h
      | cons m mid =>
          have hstore : store (pre ++ (m :: mid) ++ post) pre.length c
              = (pre ++ [c]) ++ mid ++ post := by
            simp [store]
          have hih := ih (pre ++ [c]) mid (by simpa using h)
          rw [List.length_append, List.length_singleton] at hih
          rw [stores, replay, hstore, hih]
          simp

/-! ## A file being written -/

/-- What the stream does with one `fwrite` of one object. -/
inductive Outcome where
  | full
  | short (k : Nat)
  deriving DecidableEq, Repr

structure OutFile where
  journal : List (Nat × UInt8)
  pos : Nat
  deriving DecidableEq, Repr

/-- A file just created by `fopen(path, "wb")`. -/
def OutFile.empty : OutFile := ⟨[], 0⟩

def OutFile.bytes (f : OutFile) : List UInt8 := replay [] f.journal

/-- The contents when the machine stops after `k` byte stores. -/
def OutFile.crash (f : OutFile) (k : Nat) : List UInt8 :=
  replay [] (f.journal.take k)

def OutFile.emit (f : OutFile) (bs : List UInt8) : OutFile :=
  ⟨f.journal ++ stores f.pos bs, f.pos + bs.length⟩

/-- `fwrite(p, size, 1, f)`: whether it returned `1`. -/
def OutFile.fwrite (f : OutFile) (o : Outcome) (bs : List UInt8) : OutFile × Bool :=
  match o with
  | .full => if f.pos + bs.length ≤ maxOffset then (f.emit bs, true) else (f, false)
  | .short k => (f.emit (bs.take (min k (bs.length - 1))), false)

/-- `fseek(f, off, SEEK_SET)`. -/
def OutFile.fseek (f : OutFile) (off : Nat) : OutFile := { f with pos := off }

@[simp] theorem OutFile.emit_pos (f : OutFile) (bs : List UInt8) :
    (f.emit bs).pos = f.pos + bs.length := rfl

@[simp] theorem OutFile.emit_nil (f : OutFile) : f.emit [] = f := by
  simp [OutFile.emit, stores]

theorem OutFile.emit_append (f : OutFile) (as bs : List UInt8) :
    f.emit (as ++ bs) = (f.emit as).emit bs := by
  simp only [OutFile.emit, stores_append, List.append_assoc, List.length_append,
    Nat.add_assoc]

theorem OutFile.fwrite_full {f : OutFile} {bs : List UInt8}
    (h : f.pos + bs.length ≤ maxOffset) : f.fwrite .full bs = (f.emit bs, true) := by
  rw [OutFile.fwrite, if_pos h]

/-! ### Several objects in a row -/

/-- `fwrite`s of the objects one after the other, returning at the first
that fails; `o i` is the outcome of the `i`-th. -/
def OutFile.fwrites (f : OutFile) (o : Nat → Outcome) :
    List (List UInt8) → OutFile × Bool
  | [] => (f, true)
  | bs :: bss =>
      match f.fwrite (o 0) bs with
      | (g, false) => (g, false)
      | (g, true) => g.fwrites (fun i => o (i + 1)) bss

/-- How many bytes such a sequence of `fwrite`s puts into the file and
whether all of them succeed. It depends on the SIZES only. -/
def effect (pos : Nat) (o : Nat → Outcome) : List Nat → Nat × Bool
  | [] => (0, true)
  | n :: ns =>
      match o 0 with
      | .full =>
          if pos + n ≤ maxOffset then
            let e := effect (pos + n) (fun i => o (i + 1)) ns
            (n + e.1, e.2)
          else (0, false)
      | .short k => (min k (n - 1), false)

theorem OutFile.fwrites_eq (f : OutFile) (o : Nat → Outcome)
    (bss : List (List UInt8)) :
    f.fwrites o bss =
      (f.emit (bss.flatten.take (effect f.pos o (bss.map List.length)).1),
        (effect f.pos o (bss.map List.length)).2) := by
  induction bss generalizing f o with
  | nil => simp [fwrites, effect]
  | cons bs bss ih =>
      simp only [fwrites, List.map_cons, effect, List.flatten_cons]
      cases ho : o 0 with
      | full =>
          by_cases hfit : f.pos + bs.length ≤ maxOffset
          · simp only [fwrite, hfit, if_true]
            rw [ih, List.take_length_add_append, emit_append, emit_pos]
          · simp [fwrite, hfit]
      | short k =>
          simp only [fwrite]
          rw [List.take_append_of_le_length (by omega)]

/-- A sequence that succeeds puts everything into the file, inside the
offset range. -/
theorem effect_true {pos : Nat} {o : Nat → Outcome} {ns : List Nat} (hns : ns ≠ [])
    (h : (effect pos o ns).2 = true) :
    (effect pos o ns).1 = ns.sum ∧ pos + ns.sum ≤ maxOffset := by
  induction ns generalizing pos o with
  | nil => exact absurd rfl hns
  | cons n ns ih =>
      simp only [effect] at h ⊢
      cases ho : o 0 with
      | short k => simp [ho] at h
      | full =>
          simp only [ho] at h ⊢
          by_cases hfit : pos + n ≤ maxOffset
          · simp only [hfit, if_true] at h ⊢
            cases ns with
            | nil => simpa [effect] using hfit
            | cons m ns =>
                obtain ⟨hk, hle⟩ := ih (by simp) h
                rw [hk, List.sum_cons (a := n)]
                exact ⟨rfl, by omega⟩
          · simp [hfit] at h

/-! ## A file being read -/

structure InFile where
  bytes : List UInt8
  pos : Nat
  deriving DecidableEq, Repr

/-- A file just opened by `fopen(path, "rb")`. -/
def InFile.open (bs : List UInt8) : InFile := ⟨bs, 0⟩

/-- `fread(p, n, 1, f)`: the object when it returned `1`. A short read
consumes to the end of the file. -/
def InFile.fread (f : InFile) (n : Nat) : Option (List UInt8) × InFile :=
  if f.pos + n ≤ f.bytes.length then
    (some ((f.bytes.drop f.pos).take n), { f with pos := f.pos + n })
  else (none, { f with pos := max f.pos f.bytes.length })

/-- `fseek(f, off, SEEK_SET)`. -/
def InFile.fseek (f : InFile) (off : Nat) : InFile := { f with pos := off }

/-- `fread`s of objects of the given sizes, one after the other, stopping
at the first that falls short. -/
def InFile.freads (f : InFile) : List Nat → Option (List (List UInt8)) × InFile
  | [] => (some [], f)
  | n :: ns =>
      match f.fread n with
      | (none, g) => (none, g)
      | (some bs, g) =>
          match g.freads ns with
          | (none, g') => (none, g')
          | (some bss, g') => (some (bs :: bss), g')

/-- The consecutive pieces of the given sizes. -/
def pieces : List UInt8 → List Nat → List (List UInt8)
  | _, [] => []
  | bs, n :: ns => bs.take n :: pieces (bs.drop n) ns

theorem pieces_append (bss : List (List UInt8)) (rest : List UInt8) :
    pieces (bss.flatten ++ rest) (bss.map List.length) = bss := by
  induction bss with
  | nil => rfl
  | cons bs bss ih =>
      simp only [List.flatten_cons, List.map_cons, pieces, List.append_assoc,
        List.take_left, List.drop_left]
      rw [ih]

/-- Consecutive reads succeed together when there are enough bytes left,
and return the consecutive pieces. -/
theorem InFile.freads_enough {f : InFile} {ns : List Nat}
    (h : f.pos + ns.sum ≤ f.bytes.length) :
    f.freads ns =
      (some (pieces (f.bytes.drop f.pos) ns), { f with pos := f.pos + ns.sum }) := by
  induction ns generalizing f with
  | nil => rfl
  | cons n ns ih =>
      rw [List.sum_cons] at h
      have hread : f.fread n
          = (some ((f.bytes.drop f.pos).take n), { f with pos := f.pos + n }) := by
        rw [InFile.fread, if_pos (by omega)]
      have hrest := ih (f := { f with pos := f.pos + n })
        (show f.pos + n + ns.sum ≤ f.bytes.length by omega)
      simp only [freads, hread, hrest, pieces, List.drop_drop, List.sum_cons,
        Nat.add_assoc]

/-- Otherwise they fail, and the file itself is unchanged. -/
theorem InFile.freads_short {f : InFile} {ns : List Nat} (hpos : f.pos ≤ f.bytes.length)
    (h : f.bytes.length < f.pos + ns.sum) :
    f.freads ns = (none, { f with pos := f.bytes.length }) := by
  induction ns generalizing f with
  | nil =>
      simp only [List.sum_nil, Nat.add_zero] at h
      omega
  | cons n ns ih =>
      rw [List.sum_cons] at h
      by_cases hn : f.pos + n ≤ f.bytes.length
      · have hread : f.fread n
            = (some ((f.bytes.drop f.pos).take n), { f with pos := f.pos + n }) := by
          rw [InFile.fread, if_pos hn]
        have hrest := ih (f := { f with pos := f.pos + n }) hn
          (show f.bytes.length < f.pos + n + ns.sum by omega)
        simp only [freads, hread, hrest]
      · simp only [freads, InFile.fread, if_neg hn, Nat.max_eq_right hpos]

end Lib.ByteFile
