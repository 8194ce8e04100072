import UltrafastFeed.Lib.Ledger

/-!
# Layers — a ledger on top of another

A component keeps books of its own resources; what is built on it adds
resources that may need some of those. `Stacked f low up live` says that
the ledger `live` of the whole consists of the component's, `low`, under
the names that `f` gives its resources, and of `up`. An entry of the
component's log is then accepted by the whole if the component accepts
it, unless it releases what the layer above still needs
(`Stacked.post_low`); so what is known about the component need not be
proved again.

The log of the whole has the component's calls among its own: `lower`
takes them out, and what the layer above counts along the log, a fold,
does not see them (`foldl_lifted`).
-/

namespace Lib.Ledger

open Lib.Run

variable {R S α β γ : Type}

/-! ## The log of the whole -/

/-- The component's calls in a log of the whole; `part` knows them. -/
def lower (part : β → Option α) (log : List β) : List α := log.filterMap part

section Log

variable {part : β → Option α} {g : α → β}

theorem lower_append (log calls : List β) :
    lower part (log ++ calls) = lower part log ++ lower part calls :=
  List.filterMap_append

/-- A call of the layer above is none of the component's. -/
theorem lower_concat {call : β} (hcall : part call = none) (log : List β) :
    lower part (log ++ [call]) = lower part log := by
  rw [lower_append, lower, lower, List.filterMap_cons_none hcall, List.filterMap_nil,
    List.append_nil]

/-- The calls of the component are all its own. -/
theorem lower_lifted (hg : ∀ a, part (g a) = some a) (calls : List α) :
    lower part (calls.map g) = calls := by
  have hid : part ∘ g = some := funext hg
  rw [lower, List.filterMap_map, hid, List.filterMap_some]

/-- What is counted in the layer above stays as it is. -/
theorem foldl_lifted {f : γ → β → γ} (hg : ∀ l a, f l (g a) = l) (l : γ) (calls : List α) :
    (calls.map g).foldl f l = l := by
  rw [List.foldl_map]
  exact List.foldl_fixed' (fun a => hg l a) calls

end Log

/-! ## Two layers -/

def Event.map (f : R → S) : Event R → Event S
  | .acquire r needs => .acquire (f r) (needs.map f)
  | .use r => .use (f r)
  | .release r => .release (f r)

def Held.map (f : R → S) (h : Held R) : Held S := ⟨f h.res, h.needs.map f⟩

structure Stacked (f : R → S) (low : List (Held R)) (up live : List (Held S)) : Prop where
  mem : ∀ h, h ∈ live ↔ (∃ g ∈ low, g.map f = h) ∨ h ∈ up
  apart : ∀ h ∈ up, ∀ r, h.res ≠ f r

theorem stacked_nil (f : R → S) : Stacked f [] [] [] where
  mem h := by simp
  apart h hmem := absurd hmem List.not_mem_nil

section Names

variable {f : R → S} {low : List (Held R)} {up live : List (Held S)}

theorem Stacked.mem_names_low (h : Stacked f low up live) (hf : Function.Injective f) {r : R} :
    f r ∈ names live ↔ r ∈ names low := by
  rw [mem_names, mem_names]
  constructor
  · rintro ⟨s, hs, hres⟩
    rcases (h.mem s).mp hs with ⟨g, hg, rfl⟩ | hup
    · exact ⟨g, hg, hf hres⟩
    · exact absurd hres (h.apart s hup r)
  · rintro ⟨g, hg, rfl⟩
    exact ⟨g.map f, (h.mem _).mpr (.inl ⟨g, hg, rfl⟩), rfl⟩

theorem Stacked.mem_names_up (h : Stacked f low up live) {s : S} (hs : ∀ r, s ≠ f r) :
    s ∈ names live ↔ s ∈ names up := by
  rw [mem_names, mem_names]
  constructor
  · rintro ⟨k, hk, rfl⟩
    rcases (h.mem k).mp hk with ⟨g, hg, rfl⟩ | hup
    · exact absurd rfl (hs g.res)
    · exact ⟨k, hup, rfl⟩
  · rintro ⟨k, hk, rfl⟩
    exact ⟨k, (h.mem k).mpr (.inr hk), rfl⟩

/-- With both layers empty the whole is. -/
theorem Stacked.nothing (h : Stacked f [] [] live) : live = [] := by
  apply List.eq_nil_iff_forall_not_mem.mpr
  intro k hk
  rcases (h.mem k).mp hk with ⟨g, hg, -⟩ | hup
  · exact List.not_mem_nil hg
  · exact List.not_mem_nil hup

end Names

theorem mem_filter_ne [DecidableEq S] {live : List (Held S)} {h : Held S} {s : S} :
    h ∈ live.filter (fun k => k.res ≠ s) ↔ h ∈ live ∧ h.res ≠ s := by
  rw [List.mem_filter, decide_eq_true_iff]

/-! ## Entries of the lower log -/

section Low

variable [DecidableEq R] [DecidableEq S] {f : R → S} {low low' : List (Held R)}
variable {up live : List (Held S)}

/-- **The whole accepts what the component accepts**, as long as nothing
above needs what is released. -/
theorem Stacked.post_low (h : Stacked f low up live) (hf : Function.Injective f) {e : Event R}
    (hp : post low e = some low')
    (hfree : ∀ r, e = .release r → ∀ s ∈ up, f r ∉ s.needs) :
    ∃ live', post live (e.map f) = some live' ∧ Stacked f low' up live' := by
  cases e with
  | acquire r needs =>
      obtain ⟨⟨hnew, hneeds⟩, rfl⟩ := post_acquire.mp hp
      refine ⟨_, post_acquire.mpr ⟨⟨?_, fun n hn => ?_⟩, rfl⟩, fun k => ?_, h.apart⟩
      · rw [h.mem_names_low hf]
        exact hnew
      · obtain ⟨m, hm, rfl⟩ := List.mem_map.mp hn
        exact (h.mem_names_low hf).mpr (hneeds m hm)
      · rw [List.mem_cons, h.mem]
        constructor
        · rintro (rfl | ⟨g, hg, rfl⟩ | hup)
          · exact .inl ⟨⟨r, needs⟩, List.mem_cons_self, rfl⟩
          · exact .inl ⟨g, List.mem_cons_of_mem _ hg, rfl⟩
          · exact .inr hup
        · rintro (⟨g, hg, rfl⟩ | hup)
          · rcases List.mem_cons.mp hg with rfl | hg
            · exact .inl rfl
            · exact .inr (.inl ⟨g, hg, rfl⟩)
          · exact .inr (.inr hup)
  | use r =>
      obtain ⟨hr, rfl⟩ := post_use.mp hp
      exact ⟨live, post_use.mpr ⟨(h.mem_names_low hf).mpr hr, rfl⟩, h⟩
  | release r =>
      obtain ⟨⟨hr, hneeded⟩, rfl⟩ := post_release.mp hp
      refine ⟨_, post_release.mpr ⟨⟨(h.mem_names_low hf).mpr hr, fun k hk => ?_⟩, rfl⟩,
        fun k => ?_, h.apart⟩
      · rcases (h.mem k).mp hk with ⟨g, hg, rfl⟩ | hup
        · intro hmem
          obtain ⟨n, hn, hfn⟩ := List.mem_map.mp hmem
          obtain rfl := hf hfn
          exact hneeded g hg hn
        · exact hfree r rfl k hup
      · rw [mem_filter_ne, h.mem]
        constructor
        · rintro ⟨⟨g, hg, rfl⟩ | hup, hne⟩
          · exact .inl ⟨g, mem_filter_ne.mpr ⟨hg, fun heq => hne (congrArg f heq)⟩, rfl⟩
          · exact .inr hup
        · rintro (⟨g, hg, rfl⟩ | hup)
          · obtain ⟨hg, hne⟩ := mem_filter_ne.mp hg
            exact ⟨.inl ⟨g, hg, rfl⟩, fun heq => hne (hf heq)⟩
          · exact ⟨.inr hup, h.apart k hup r⟩

/-- Whole lower logs; `g` puts a call of the component among those of the
whole. -/
theorem Stacked.run_low {ev : α → Event R} {ev' : β → Event S} {g : α → β}
    (hg : ∀ a, ev' (g a) = (ev a).map f) (hf : Function.Injective f) {log : List α}
    (h : Stacked f low up live) (hrun : run (step ev) low log = some low')
    (hfree : ∀ a ∈ log, ∀ r, ev a = .release r → ∀ s ∈ up, f r ∉ s.needs) :
    ∃ live', run (step ev') live (log.map g) = some live' ∧ Stacked f low' up live' := by
  induction log generalizing low live with
  | nil =>
      rw [run_nil] at hrun
      cases hrun
      exact ⟨live, rfl, h⟩
  | cons a log ih =>
      obtain ⟨mid, hmid, hrun⟩ := run_cons.mp hrun
      obtain ⟨next, hnext, hst⟩ := h.post_low hf hmid (hfree a List.mem_cons_self)
      obtain ⟨live', hlive, hst'⟩ :=
        ih hst hrun fun b hb => hfree b (List.mem_cons_of_mem _ hb)
      refine ⟨live', run_cons.mpr ⟨next, ?_, hlive⟩, hst'⟩
      rw [step, hg]
      exact hnext

end Low

/-! ## Entries of the layer above -/

section Up

variable [DecidableEq S] {f : R → S} {low : List (Held R)} {up live : List (Held S)} {s : S}

theorem Stacked.acquire (h : Stacked f low up live) {needs : List S} (hs : ∀ r, s ≠ f r)
    (hnew : s ∉ names up) (hneeds : ∀ n ∈ needs, n ∈ names live) :
    ∃ live', post live (.acquire s needs) = some live' ∧
      Stacked f low (⟨s, needs⟩ :: up) live' := by
  refine ⟨_, post_acquire.mpr ⟨⟨?_, hneeds⟩, rfl⟩, fun k => ?_, fun k hk r => ?_⟩
  · rw [h.mem_names_up hs]
    exact hnew
  · rw [List.mem_cons, List.mem_cons, h.mem, or_left_comm]
  · rcases List.mem_cons.mp hk with rfl | hk
    · exact hs r
    · exact h.apart k hk r

theorem Stacked.release (h : Stacked f low up live) (hs : ∀ r, s ≠ f r) (hmem : s ∈ names up)
    (hfree : ∀ k ∈ up, s ∉ k.needs) :
    ∃ live', post live (.release s) = some live' ∧
      Stacked f low (up.filter fun k => k.res ≠ s) live' := by
  refine ⟨_, post_release.mpr ⟨⟨(h.mem_names_up hs).mpr hmem, fun k hk => ?_⟩, rfl⟩,
    fun k => ?_, fun k hk => h.apart k (mem_filter_ne.mp hk).1⟩
  · rcases (h.mem k).mp hk with ⟨g, hg, rfl⟩ | hup
    · intro hneeds
      obtain ⟨n, -, hn⟩ := List.mem_map.mp hneeds
      exact hs n hn.symm
    · exact hfree k hup
  · rw [mem_filter_ne, mem_filter_ne, h.mem]
    constructor
    · rintro ⟨hlow | hup, hne⟩
      · exact .inl hlow
      · exact .inr ⟨hup, hne⟩
    · rintro (⟨g, hg, rfl⟩ | ⟨hup, hne⟩)
      · exact ⟨.inl ⟨g, hg, rfl⟩, fun heq => hs g.res heq.symm⟩
      · exact ⟨.inr hup, hne⟩

end Up

end Lib.Ledger
