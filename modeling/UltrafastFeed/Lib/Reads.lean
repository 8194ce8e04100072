import Mathlib.Logic.Basic
import Mathlib.Tactic.Common

/-!
# Reads — programs that read a byte memory

A program that inspects raw memory is a TREE: it either ends with a
value, dereferences a null pointer (`undefined`), or reads one byte and
goes on. Memory is total: whether an address MAY be read is not decided
here, `trace` says which ones are. The tree says what is read before anything
is known about the memory, so three meanings share one program: its
value on a memory that stands still (`eval`), the addresses it reads
there (`trace`), and what is left of it after some reads have been
answered (`feed`), which is how it runs beside another writer.

`Runs m S t a` packs the first two: on `m` the program ends with `a` and
reads inside `S` only. It composes along `bind`, and it carries over to
every memory that agrees with `m` on `S` (`Runs.congr`).
-/

namespace Lib

inductive Reads (α : Type) where
  | done (a : α)
  | undefined
  | read (addr : Nat) (k : UInt8 → Reads α)

namespace Reads

variable {α β : Type}

def bind : Reads α → (α → Reads β) → Reads β
  | done a, f => f a
  | undefined, _ => undefined
  | read addr k, f => read addr fun b => (k b).bind f

instance : Monad Reads where
  pure := done
  bind := bind

theorem bind_done (t : Reads α) : t.bind done = t := by
  induction t with
  | done a => rfl
  | undefined => rfl
  | read addr k ih => exact congrArg (read addr) (funext ih)

theorem bind_bind {γ : Type} (t : Reads α) (f : α → Reads β) (g : β → Reads γ) :
    (t.bind f).bind g = t.bind fun a => (f a).bind g := by
  induction t with
  | done a => rfl
  | undefined => rfl
  | read addr k ih => exact congrArg (read addr) (funext ih)

instance : LawfulMonad Reads :=
  LawfulMonad.mk' Reads bind_done (fun _ _ => rfl) bind_bind

/-- One byte. -/
def byte (addr : Nat) : Reads UInt8 := read addr done

/-- `n` bytes in ascending order. -/
def bytes (addr : Nat) : Nat → Reads (List UInt8)
  | 0 => done []
  | n + 1 => read addr fun b => (bytes (addr + 1) n).bind fun bs => done (b :: bs)

/-- The target of a pointer, `none` being the null pointer. -/
def deref : Option Nat → Reads Nat
  | none => undefined
  | some addr => done addr

/-! ## Meaning -/

/-- The value on a memory that stands still, `none` if undefined. -/
def eval (m : Nat → UInt8) : Reads α → Option α
  | done a => some a
  | undefined => none
  | read addr k => (k (m addr)).eval m

/-- The addresses read, in order. -/
def trace (m : Nat → UInt8) : Reads α → List Nat
  | done _ => []
  | undefined => []
  | read addr k => addr :: (k (m addr)).trace m

/-- What is left to do once the first reads have returned `bs`. -/
def feed : List UInt8 → Reads α → Reads α
  | b :: bs, read _ k => feed bs (k b)
  | _, t => t

/-- On `m` the program ends with `a` and reads only addresses in `S`. -/
def Runs (m : Nat → UInt8) (S : Nat → Prop) (t : Reads α) (a : α) : Prop :=
  t.eval m = some a ∧ ∀ x ∈ t.trace m, S x

variable {m m' : Nat → UInt8} {S : Nat → Prop} {t : Reads α} {a : α} {b : β}

/-! ## Rules -/

theorem Runs.eval_eq (h : Runs m S t a) : t.eval m = some a := h.1

/-- A run dereferences no null pointer and stays inside `S`. -/
theorem Runs.safe (h : Runs m S t a) : t.eval m ≠ none ∧ ∀ x ∈ t.trace m, S x := by
  refine ⟨?_, h.2⟩
  rw [h.1]
  exact Option.some_ne_none a

theorem runs_done : Runs m S (done a) a :=
  ⟨rfl, fun _ hx => absurd hx List.not_mem_nil⟩

theorem runs_pure : Runs m S (pure a) a := runs_done

theorem runs_read {addr : Nat} {k : UInt8 → Reads α} (hS : S addr)
    (h : Runs m S (k (m addr)) a) : Runs m S (read addr k) a := by
  refine ⟨h.1, fun x hx => ?_⟩
  rcases List.mem_cons.mp hx with rfl | hx
  · exact hS
  · exact h.2 x hx

/-- The first read of a run has been made. -/
theorem Runs.read {addr : Nat} {k : UInt8 → Reads α} (h : Runs m S (read addr k) a) :
    S addr ∧ Runs m S (k (m addr)) a :=
  ⟨h.2 addr List.mem_cons_self, h.1, fun x hx => h.2 x (List.mem_cons_of_mem _ hx)⟩

theorem runs_byte {addr : Nat} (hS : S addr) : Runs m S (byte addr) (m addr) :=
  runs_read hS runs_done

theorem runs_deref {addr : Nat} : Runs m S (deref (some addr)) addr := runs_done

/-- Sequencing: both parts read inside `S`. -/
theorem Runs.bind {f : α → Reads β} (ht : Runs m S t a) (hf : Runs m S (f a) b) :
    Runs m S (t >>= f) b := by
  obtain ⟨he, htr⟩ := ht
  induction t with
  | done a' =>
      cases he
      exact hf
  | undefined => cases he
  | read addr k ih =>
      exact runs_read (htr addr List.mem_cons_self)
        (ih (m addr) he fun x hx => htr x (List.mem_cons_of_mem _ hx))

theorem runs_bytes {addr n : Nat} (hS : ∀ i, i < n → S (addr + i)) :
    Runs m S (bytes addr n) ((List.range n).map fun i => m (addr + i)) := by
  induction n generalizing addr with
  | zero => exact runs_done
  | succ n ih =>
      have hrest : Runs m S (bytes (addr + 1) n) _ := ih fun i hi => by
        have := hS (i + 1) (by omega)
        rwa [Nat.add_comm i 1, ← Nat.add_assoc] at this
      have hlist : (List.range (n + 1)).map (fun i => m (addr + i))
          = m addr :: (List.range n).map fun i => m (addr + 1 + i) := by
        rw [List.range_succ_eq_map, List.map_cons, List.map_map]
        congr 1
        apply List.map_congr_left
        intro i _
        rw [Function.comp_apply, Nat.succ_eq_add_one, Nat.add_comm i 1, ← Nat.add_assoc]
      rw [hlist]
      exact runs_read (hS 0 (by omega)) (Runs.bind hrest runs_done)

/-- **Locality.** A memory that agrees on the bytes read gives the same
run. -/
theorem Runs.congr (h : Runs m S t a) (hm : ∀ x, S x → m' x = m x) :
    Runs m' S t a := by
  obtain ⟨he, htr⟩ := h
  induction t with
  | done a' => exact ⟨he, htr⟩
  | undefined => cases he
  | read addr k ih =>
      have haddr : S addr := htr addr List.mem_cons_self
      refine runs_read haddr ?_
      rw [hm addr haddr]
      exact ih (m addr) he fun x hx => htr x (List.mem_cons_of_mem _ hx)

/-! ## Whatever the memory does -/

/-- Every value the program can end with satisfies `Q`. -/
def Returns (Q : α → Prop) : Reads α → Prop
  | done a => Q a
  | undefined => True
  | read _ k => ∀ b, (k b).Returns Q

theorem returns_bind {Q : β → Prop} {f : α → Reads β} (t : Reads α)
    (h : ∀ a, (f a).Returns Q) : (t >>= f).Returns Q := by
  induction t with
  | done a => exact h a
  | undefined => trivial
  | read addr k ih => exact ih

theorem Returns.feed {Q : α → Prop} (h : t.Returns Q) (bs : List UInt8) :
    (feed bs t).Returns Q := by
  induction bs generalizing t with
  | nil => exact h
  | cons b bs ih =>
      cases t with
      | done a => exact h
      | undefined => exact h
      | read addr k => exact ih (h b)

theorem feed_done (bs : List UInt8) (a : α) : feed bs (done a) = done a := by
  cases bs <;> rfl

/-- A sequence that has ended: its first part has, and the second part
has on what was left. -/
theorem feed_bind {f : α → Reads β} {c : β} {bs : List UInt8}
    (h : feed bs (t >>= f) = done c) :
    ∃ a cs, feed bs t = done a ∧ feed cs (f a) = done c := by
  induction t generalizing bs with
  | done a => exact ⟨a, bs, feed_done bs a, h⟩
  | undefined => cases bs <;> cases h
  | read addr k ih =>
      cases bs with
      | nil => cases h
      | cons b bs => exact ih b h

/-! ## A memory that stands still only in part -/

/-- No null pointer is dereferenced on a memory that is `m` inside `S`
and anything, at any time, outside. -/
def Defined (m : Nat → UInt8) (S : Nat → Prop) : Reads α → Prop
  | done _ => True
  | undefined => False
  | read addr k => ∀ b, (S addr → b = m addr) → (k b).Defined m S

/-- The program ends within `n` reads, whatever they return. -/
def Within : Nat → Reads α → Prop
  | _, done _ => True
  | _, undefined => True
  | 0, read _ _ => False
  | n + 1, read _ k => ∀ b, (k b).Within n

theorem feed_append (bs cs : List UInt8) (t : Reads α) :
    feed (bs ++ cs) t = feed cs (feed bs t) := by
  induction bs generalizing t with
  | nil => rfl
  | cons b bs ih =>
      cases t with
      | done a => rw [feed_done, feed_done, feed_done]
      | undefined => cases cs <;> rfl
      | read addr k => exact ih (k b)

/-- One more read. -/
theorem feed_read {bs : List UInt8} {addr : Nat} {k : UInt8 → Reads α} (b : UInt8)
    (h : feed bs t = read addr k) : feed (bs ++ [b]) t = k b := by
  rw [feed_append, h]
  cases hk : k b <;> simp [feed, hk]

theorem Defined.congr (h : t.Defined m S) (hm : ∀ x, S x → m' x = m x) : t.Defined m' S := by
  induction t with
  | done a => trivial
  | undefined => exact h
  | read addr k ih =>
      intro b hb
      exact ih b (h b fun hS => (hb hS).trans (hm addr hS))

theorem Defined.eval_some (h : t.Defined m S) : ∃ a, t.eval m = some a := by
  induction t with
  | done a => exact ⟨a, rfl⟩
  | undefined => exact h.elim
  | read addr k ih => exact ih (m addr) (h (m addr) fun _ => rfl)

/-- A first part that reads inside `S` only. -/
theorem Runs.defined_bind {f : α → Reads β} (ht : Runs m S t a) (hf : (f a).Defined m S) :
    (t >>= f).Defined m S := by
  obtain ⟨he, htr⟩ := ht
  induction t with
  | done a' =>
      cases he
      exact hf
  | undefined => cases he
  | read addr k ih =>
      intro b hb
      have hmem : b = m addr := hb (htr addr List.mem_cons_self)
      subst hmem
      exact ih (m addr) he fun x hx => htr x (List.mem_cons_of_mem _ hx)

/-- A first part that reads anything. -/
theorem Defined.bind {f : α → Reads β} (ht : t.Defined m S) (hf : ∀ a, (f a).Defined m S) :
    (t >>= f).Defined m S := by
  induction t with
  | done a => exact hf a
  | undefined => exact ht
  | read addr k ih => exact fun b hb => ih b (ht b hb)

theorem defined_bytes (addr n : Nat) : (bytes addr n).Defined m S := by
  induction n generalizing addr with
  | zero => trivial
  | succ n ih => exact fun b _ => (ih (addr + 1)).bind fun _ => trivial

theorem Within.mono {n n' : Nat} (h : t.Within n) (hn : n ≤ n') : t.Within n' := by
  induction t generalizing n n' with
  | done a => cases n' <;> trivial
  | undefined => cases n' <;> trivial
  | read addr k ih =>
      cases n with
      | zero => exact h.elim
      | succ n =>
          cases n' with
          | zero => omega
          | succ n' => exact fun b => ih b (h b) (by omega)

theorem Within.bind {n n' : Nat} {f : α → Reads β} (ht : t.Within n)
    (hf : ∀ a, (f a).Within n') : (t >>= f).Within (n' + n) := by
  induction t generalizing n with
  | done a => exact (hf a).mono (Nat.le_add_right _ _)
  | undefined => cases n' + n <;> trivial
  | read addr k ih =>
      cases n with
      | zero => exact ht.elim
      | succ n => exact fun b => ih b (ht b)

theorem within_done (n : Nat) (a : α) : (done a).Within n := by cases n <;> trivial

theorem within_bytes (addr n : Nat) : (bytes addr n).Within n := by
  induction n generalizing addr with
  | zero => trivial
  | succ n ih => exact fun b => ((ih (addr + 1)).bind fun _ => within_done 0 _).mono (by omega)

theorem Within.trace_length {n : Nat} (h : t.Within n) (m : Nat → UInt8) :
    (t.trace m).length ≤ n := by
  induction t generalizing n with
  | done a => exact Nat.zero_le _
  | undefined => exact Nat.zero_le _
  | read addr k ih =>
      cases n with
      | zero => exact h.elim
      | succ n => exact Nat.succ_le_succ (ih (m addr) (h (m addr)))

/-- A program that still reads has not used up its reads. -/
theorem Within.feed_lt {n addr : Nat} {bs : List UInt8} {k : UInt8 → Reads α}
    (h : t.Within n) (hfeed : feed bs t = read addr k) : bs.length < n := by
  induction bs generalizing t n with
  | nil =>
      cases n with
      | zero =>
          rw [show t = read addr k from hfeed] at h
          exact h.elim
      | succ n => exact Nat.succ_pos n
  | cons b bs ih =>
      cases t with
      | done a => cases hfeed
      | undefined => cases hfeed
      | read addr' k' =>
          cases n with
          | zero => exact h.elim
          | succ n => exact Nat.succ_lt_succ (ih (h b) hfeed)

end Reads

end Lib
