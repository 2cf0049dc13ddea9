import Mathlib.Tactic.ByContra
import Mathlib.Tactic.SplitIfs

/-!
# Steps under a limit that is not reached

A step that a limit stops says so in its state, and no later step takes that
back. As long as nothing is said, the same steps under a wider limit do the
same.
-/

set_option autoImplicit false

namespace FastSync.LimitedRun

/-- How states carry their limits: whether one has stopped a step, whether the
limits are below the wider ones, and the same state under those. -/
structure Limits (σ : Type*) where
  hit : σ → Bool
  Tighter : σ → Prop
  widen : σ → σ

variable {σ α β : Type*} {L : Limits σ}

/-- A step that is the same under the wider limits, unless it is stopped. -/
structure Unhindered (L : Limits σ) (f : σ → σ × α) : Prop where
  keeps : ∀ s, L.hit s = true → L.hit (f s).1 = true
  tighter : ∀ s, L.Tighter s → L.Tighter (f s).1
  same : ∀ s, L.Tighter s → L.hit (f s).1 = false → f (L.widen s) = (L.widen (f s).1, (f s).2)

theorem unhindered_pure (a : α) : Unhindered L fun s => (s, a) :=
  ⟨fun _ h => h,fun _ h => h,fun _ _ _ => rfl⟩

variable {f : σ → σ × α}

theorem unhindered_bind {g : α → σ → σ × β} (hf : Unhindered L f)
    (hg : ∀ a, Unhindered L (g a)) : Unhindered L fun s => g (f s).2 (f s).1 := by
  constructor
  · intro s h
    exact (hg _).keeps _ (hf.keeps s h)
  · intro s h
    exact (hg _).tighter _ (hf.tighter s h)
  · intro s hs h
    have hfirst : L.hit (f s).1 = false := by
      by_contra hhit
      rw [(hg _).keeps _ (by simpa using hhit)] at h
      cases h
    rw [hf.same s hs hfirst]
    exact (hg _).same _ (hf.tighter s hs) h

theorem unhindered_at (view : σ → β) (hview : ∀ s, view (L.widen s) = view s)
    (hf : ∀ b, ∃ g, Unhindered L g ∧ ∀ s, view s = b → f s = g s) : Unhindered L f := by
  constructor
  · intro s h
    obtain ⟨g,hg,heq⟩ := hf (view s)
    rw [heq s rfl]
    exact hg.keeps s h
  · intro s h
    obtain ⟨g,hg,heq⟩ := hf (view s)
    rw [heq s rfl]
    exact hg.tighter s h
  · intro s hs h
    obtain ⟨g,hg,heq⟩ := hf (view s)
    rw [heq s rfl] at h ⊢
    rw [heq _ (hview s)]
    exact hg.same s hs h

theorem unhindered_pair {γ : Type*} (view : σ → β) (view' : σ → γ)
    (hview : ∀ s, view (L.widen s) = view s ∧ view' (L.widen s) = view' s)
    (hf : ∀ b c, ∃ g, Unhindered L g ∧ ∀ s, view s = b → view' s = c → f s = g s) :
    Unhindered L f :=
  unhindered_at (fun s => (view s, view' s)) (fun s => Prod.ext (hview s).1 (hview s).2) fun v =>
    (hf v.1 v.2).imp fun _ h => ⟨h.1,fun s hs => h.2 s (congrArg Prod.fst hs) (congrArg Prod.snd hs)⟩

theorem unhindered_view {f : β → σ → σ × α} (view : σ → β)
    (hview : ∀ s, view (L.widen s) = view s) (hf : ∀ b, Unhindered L (f b)) :
    Unhindered L fun s => f (view s) s :=
  unhindered_at view hview fun b => ⟨f b,hf b,fun _ h => by rw [h]⟩

/-- The test of a limit: what has room keeps it under the wider one, and what has
none is said. -/
theorem unhindered_gate {stop : σ → σ × α} {Full : σ → Prop} [DecidablePred Full]
    (hfull : ∀ s, L.Tighter s → Full (L.widen s) → Full s) (hf : Unhindered L f)
    (hstop : ∀ s, L.hit (stop s).1 = true) (htighter : ∀ s, L.Tighter s → L.Tighter (stop s).1) :
    Unhindered L fun s => if Full s then stop s else f s := by
  constructor
  · intro s h
    split_ifs
    · exact hstop s
    · exact hf.keeps s h
  · intro s h
    split_ifs
    · exact htighter s h
    · exact hf.tighter s h
  · intro s hs h
    split_ifs at h with hroom
    · rw [hstop] at h
      cases h
    · rw [if_neg hroom, if_neg fun hwide => hroom (hfull s hs hwide)]
      exact hf.same s hs h

theorem unhindered_map (hf : Unhindered L f) (g : α → β) :
    Unhindered L fun s => ((f s).1, g (f s).2) :=
  unhindered_bind hf fun a => unhindered_pure (g a)

end FastSync.LimitedRun
