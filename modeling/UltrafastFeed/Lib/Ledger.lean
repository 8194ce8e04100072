import Mathlib.Data.List.Induction
import Mathlib.Data.List.Nodup
import UltrafastFeed.Lib.Run

/-!
# Ledger — resources that are acquired, used and released

A program's calls into its environment, in order, are a log; `ev` says
what each call does to a resource. The ledger is the list of the live
resources, each with the live resources it needs. It refuses

* to acquire a resource that is live,
* to use or release one that is not,
* to release one that a live resource needs,

so a log the ledger accepts has no use after release and no double
release, and one it accepts down to the empty ledger has no leak. The
two halves of that are `released_after` (an acquisition is followed by its
release, with nothing in between that touches the resource) and
`acquired_before` (a release follows its acquisition).
-/

namespace Lib.Ledger

open Lib.Run

variable {R α : Type}

inductive Event (R : Type) where
  | acquire (r : R) (needs : List R)
  | use (r : R)
  | release (r : R)
  deriving DecidableEq, Repr

/-- A live resource and what it needs. -/
structure Held (R : Type) where
  res : R
  needs : List R
  deriving DecidableEq, Repr

def names (live : List (Held R)) : List R := live.map Held.res

@[simp] theorem names_nil : names ([] : List (Held R)) = [] := rfl

@[simp] theorem names_cons (h : Held R) (live : List (Held R)) :
    names (h :: live) = h.res :: names live := rfl

theorem mem_names {r : R} {live : List (Held R)} :
    r ∈ names live ↔ ∃ h ∈ live, h.res = r := List.mem_map

variable [DecidableEq R]

/-- One entry of the log. -/
def post (live : List (Held R)) : Event R → Option (List (Held R))
  | .acquire r needs =>
      if r ∉ names live ∧ ∀ n ∈ needs, n ∈ names live then some (⟨r, needs⟩ :: live) else none
  | .use r => if r ∈ names live then some live else none
  | .release r =>
      if r ∈ names live ∧ ∀ h ∈ live, r ∉ h.needs then
        some (live.filter fun h => h.res ≠ r)
      else none

/-- The ledger as a step function on a log. -/
def step (ev : α → Event R) (live : List (Held R)) (a : α) : Option (List (Held R)) :=
  post live (ev a)

def acquires (r : R) : Event R → Bool
  | .acquire q _ => q = r
  | _ => false

def releases (r : R) : Event R → Bool
  | .release q => q = r
  | _ => false

theorem names_filter (r : R) (live : List (Held R)) :
    names (live.filter fun h => h.res ≠ r) = (names live).filter (· ≠ r) := by
  rw [names, names, List.filter_map]
  rfl

/-! ## One entry -/

variable {live live' : List (Held R)} {r : R} {needs : List R}

theorem post_acquire :
    post live (.acquire r needs) = some live' ↔
      (r ∉ names live ∧ ∀ n ∈ needs, n ∈ names live) ∧ live' = ⟨r, needs⟩ :: live := by
  rw [post, Option.ite_none_right_eq_some, Option.some.injEq, eq_comm (a := live')]

theorem post_use : post live (.use r) = some live' ↔ r ∈ names live ∧ live' = live := by
  rw [post, Option.ite_none_right_eq_some, Option.some.injEq, eq_comm (a := live')]

theorem post_release :
    post live (.release r) = some live' ↔
      (r ∈ names live ∧ ∀ h ∈ live, r ∉ h.needs) ∧
        live' = live.filter fun h => h.res ≠ r := by
  rw [post, Option.ite_none_right_eq_some, Option.some.injEq, eq_comm (a := live')]

/-- What was just acquired can be released again. -/
theorem post_release_new (hnew : r ∉ names live) (hself : r ∉ needs)
    (hfree : ∀ h ∈ live, r ∉ h.needs) :
    post (⟨r, needs⟩ :: live) (.release r) = some live := by
  refine post_release.mpr ⟨⟨by simp, List.forall_mem_cons.mpr ⟨hself, hfree⟩⟩, ?_⟩
  have hkeep : live.filter (fun h => h.res ≠ r) = live := by
    apply List.filter_eq_self.mpr
    intro h hmem
    have hne : h.res ≠ r := by
      rintro rfl
      exact hnew (mem_names.mpr ⟨h, hmem, rfl⟩)
    simpa using hne
  rw [List.filter_cons, hkeep]
  simp

/-- An entry that neither acquires nor releases `r` leaves it as it is. -/
theorem post_other {e : Event R} {h : Held R} (hp : post live e = some live')
    (hacq : acquires h.res e = false) (hrel : releases h.res e = false) :
    h ∈ live' ↔ h ∈ live := by
  cases e with
  | acquire q ns =>
      obtain ⟨-, rfl⟩ := post_acquire.mp hp
      have hne : h ≠ ⟨q, ns⟩ := by
        rintro rfl
        simp [acquires] at hacq
      simp [hne]
  | use q =>
      obtain ⟨-, rfl⟩ := post_use.mp hp
      rfl
  | release q =>
      obtain ⟨-, rfl⟩ := post_release.mp hp
      have hne : h.res ≠ q := by
        intro heq
        simp [releases, heq] at hrel
      simp [hne]

/-- An entry that leaves `h` live and did not acquire it. -/
theorem post_untouched {e : Event R} {h : Held R} (hp : post live e = some live')
    (hmem : h ∈ live') (hacq : e ≠ .acquire h.res h.needs) :
    acquires h.res e = false ∧ releases h.res e = false := by
  cases e with
  | acquire q ns =>
      obtain ⟨⟨hq, -⟩, rfl⟩ := post_acquire.mp hp
      have hold : h ∈ live := by
        rcases List.mem_cons.mp hmem with rfl | hold
        · exact absurd rfl hacq
        · exact hold
      have hne : q ≠ h.res := by
        rintro rfl
        exact hq (mem_names.mpr ⟨h, hold, rfl⟩)
      exact ⟨by simp [acquires, hne], rfl⟩
  | use q => exact ⟨rfl, rfl⟩
  | release q =>
      obtain ⟨-, rfl⟩ := post_release.mp hp
      have hne : h.res ≠ q := by simpa using (List.mem_filter.mp hmem).2
      exact ⟨rfl, by simp [releases, Ne.symm hne]⟩

/-- An entry that finds `h` live and does not release it. -/
theorem post_keeps {e : Event R} {h : Held R} (hp : post live e = some live')
    (hmem : h ∈ live) (hrel : e ≠ .release h.res) :
    acquires h.res e = false ∧ releases h.res e = false ∧
      ∀ n ∈ h.needs, releases n e = false := by
  cases e with
  | acquire q ns =>
      have hne : q ≠ h.res := by
        rintro rfl
        exact (post_acquire.mp hp).1.1 (mem_names.mpr ⟨h, hmem, rfl⟩)
      exact ⟨by simp [acquires, hne], rfl, fun _ _ => rfl⟩
  | use q => exact ⟨rfl, rfl, fun _ _ => rfl⟩
  | release q =>
      have hne : q ≠ h.res := by
        rintro rfl
        exact hrel rfl
      refine ⟨rfl, by simp [releases, hne], fun n hn => ?_⟩
      have hneed : q ∉ h.needs := (post_release.mp hp).1.2 h hmem
      have hqn : q ≠ n := by
        rintro rfl
        exact hneed hn
      simp [releases, hqn]

/-- No resource is live twice. -/
theorem post_nodup {e : Event R} (hp : post live e = some live') (hn : (names live).Nodup) :
    (names live').Nodup := by
  cases e with
  | acquire q ns =>
      obtain ⟨⟨hq, -⟩, rfl⟩ := post_acquire.mp hp
      exact List.nodup_cons.mpr ⟨hq, hn⟩
  | use q =>
      obtain ⟨-, rfl⟩ := post_use.mp hp
      exact hn
  | release q =>
      obtain ⟨-, rfl⟩ := post_release.mp hp
      rw [names_filter]
      exact hn.filter _

/-- What an entry does to the number of times `r` is live. -/
theorem post_count {e : Event R} (hp : post live e = some live') (hn : (names live).Nodup) :
    (names live).count r + (if acquires r e then 1 else 0) =
      (names live').count r + (if releases r e then 1 else 0) := by
  cases e with
  | acquire q ns =>
      obtain ⟨-, rfl⟩ := post_acquire.mp hp
      by_cases hq : q = r
      · simp [acquires, releases, hq]
      · simp [acquires, releases, hq]
  | use q =>
      obtain ⟨-, rfl⟩ := post_use.mp hp
      rfl
  | release q =>
      obtain ⟨⟨hq, -⟩, rfl⟩ := post_release.mp hp
      rw [names_filter]
      by_cases hqr : q = r
      · subst hqr
        have hgone : q ∉ (names live).filter (· ≠ q) := by simp
        rw [List.count_eq_one_of_mem hn hq, List.count_eq_zero_of_not_mem hgone]
        simp [acquires, releases]
      · have hcount : ((names live).filter (· ≠ q)).count r = (names live).count r :=
          List.count_filter (by simpa using Ne.symm hqr)
        rw [hcount]
        simp [acquires, releases, hqr]

/-! ## Whole logs -/

variable {ev : α → Event R} {log : List α}

theorem run_nodup (hrun : run (step ev) live log = some live') (hn : (names live).Nodup) :
    (names live').Nodup :=
  run_invariant (I := fun l => (names l).Nodup) (fun _ _ _ hl hp => post_nodup hp hl) hn hrun

/-- **The books balance**: what was live or acquired is live or released. -/
theorem run_count (hrun : run (step ev) live log = some live') (hn : (names live).Nodup) :
    (names live).count r + log.countP (fun a => acquires r (ev a)) =
      (names live').count r + log.countP (fun a => releases r (ev a)) := by
  induction log generalizing live with
  | nil =>
      rw [run_nil] at hrun
      cases hrun
      rfl
  | cons a log ih =>
      obtain ⟨mid, hmid, hrun⟩ := run_cons.mp hrun
      have hone := post_count (r := r) hmid hn
      have hrest := ih hrun (post_nodup hmid hn)
      rw [List.countP_cons, List.countP_cons]
      omega

/-- An entry in the middle of a log finds the ledger of the entries
before it. -/
theorem run_at {pre rest : List α} {a : α}
    (hrun : run (step ev) live (pre ++ a :: rest) = some live') :
    ∃ mid, run (step ev) live pre = some mid ∧
      ∃ next, post mid (ev a) = some next ∧ run (step ev) next rest = some live' := by
  obtain ⟨mid, hmid, hrun⟩ := run_append.mp hrun
  obtain ⟨next, hnext, hrun⟩ := run_cons.mp hrun
  exact ⟨mid, hmid, next, hnext, hrun⟩

/-- **No leak**: what is live and not live at the end is released, before
it is acquired again and before anything it needs is released. -/
theorem released_ahead {h : Held R} (hrun : run (step ev) live log = some live')
    (hmem : h ∈ live) (hend : h.res ∉ names live') :
    ∃ mid a rest, log = mid ++ a :: rest ∧ ev a = .release h.res ∧
      ∀ b ∈ mid, acquires h.res (ev b) = false ∧ releases h.res (ev b) = false ∧
        ∀ n ∈ h.needs, releases n (ev b) = false := by
  induction log generalizing live with
  | nil =>
      rw [run_nil] at hrun
      cases hrun
      exact absurd (mem_names.mpr ⟨h, hmem, rfl⟩) hend
  | cons a log ih =>
      obtain ⟨next, hnext, hrun⟩ := run_cons.mp hrun
      by_cases hrel : ev a = .release h.res
      · exact ⟨[], a, log, rfl, hrel, by simp⟩
      · have ha := post_keeps hnext hmem hrel
        obtain ⟨mid, b, rest, rfl, hb, hmid⟩ :=
          ih hrun ((post_other hnext ha.1 ha.2.1).mpr hmem)
        exact ⟨a :: mid, b, rest, rfl, hb, List.forall_mem_cons.mpr ⟨ha, hmid⟩⟩

/-- **Nothing out of nowhere**: what is live at the end of a log and was
not at its start was acquired in it, and not touched since. -/
theorem acquired_behind {h : Held R} (hrun : run (step ev) live log = some live')
    (hmem : h ∈ live') (hstart : h ∉ live) :
    ∃ before a mid, log = before ++ a :: mid ∧ ev a = .acquire h.res h.needs ∧
      ∀ b ∈ mid, acquires h.res (ev b) = false ∧ releases h.res (ev b) = false := by
  induction log using List.reverseRecOn generalizing live' with
  | nil =>
      rw [run_nil] at hrun
      cases hrun
      exact absurd hmem hstart
  | append_singleton log a ih =>
      obtain ⟨prev, hprev, hrun⟩ := run_append.mp hrun
      obtain ⟨next, hnext, hrun⟩ := run_cons.mp hrun
      rw [run_nil] at hrun
      cases hrun
      by_cases hacq : ev a = .acquire h.res h.needs
      · exact ⟨log, a, [], rfl, hacq, by simp⟩
      · have ha := post_untouched hnext hmem hacq
        obtain ⟨before, b, mid, rfl, hb, hmid⟩ :=
          ih hprev ((post_other hnext ha.1 ha.2).mp hmem)
        refine ⟨before, b, mid ++ [a], by simp, hb, fun c hc => ?_⟩
        rcases List.mem_append.mp hc with hc | hc
        · exact hmid c hc
        · rw [List.mem_singleton.mp hc]
          exact ha

/-- In a log that ends with an empty ledger every acquisition is followed
by its release. -/
theorem released_after {before after : List α} {a : α}
    (hrun : run (step ev) [] (before ++ a :: after) = some [])
    (ha : ev a = .acquire r needs) :
    ∃ mid b rest, after = mid ++ b :: rest ∧ ev b = .release r ∧
      ∀ c ∈ mid, acquires r (ev c) = false ∧ releases r (ev c) = false ∧
        ∀ n ∈ needs, releases n (ev c) = false := by
  obtain ⟨live, -, next, hnext, hrun⟩ := run_at hrun
  rw [ha] at hnext
  obtain ⟨-, rfl⟩ := post_acquire.mp hnext
  exact released_ahead hrun List.mem_cons_self List.not_mem_nil

/-- In a log that starts with an empty ledger every release follows its
acquisition. -/
theorem acquired_before {before after : List α} {a : α}
    (hrun : run (step ev) [] (before ++ a :: after) = some live') (ha : ev a = .release r) :
    ∃ first b mid, before = first ++ b :: mid ∧ (∃ needs, ev b = .acquire r needs) ∧
      ∀ c ∈ mid, acquires r (ev c) = false ∧ releases r (ev c) = false := by
  obtain ⟨live, hlive, next, hnext, -⟩ := run_at hrun
  rw [ha] at hnext
  obtain ⟨⟨hmem, -⟩, -⟩ := post_release.mp hnext
  obtain ⟨h, hh, rfl⟩ := mem_names.mp hmem
  obtain ⟨first, b, mid, hbefore, hb, hmid⟩ := acquired_behind hlive hh List.not_mem_nil
  exact ⟨first, b, mid, hbefore, ⟨h.needs, hb⟩, hmid⟩

end Lib.Ledger
