import FastSync.LittleEndian

/-!
# Readers of a byte stream

A reader takes bytes off the front of what is left, may change a state it
carries along, and may give up. What it does with a byte string at the front is
independent of what follows, so a reader of a record is understood from readers
of the fields: it reads the string exactly when a condition holds, and otherwise
refuses it.
-/

set_option autoImplicit false

namespace FastSync.ByteReader
open LittleEndian

def Reader (σ α : Type) : Type := List UInt8 → σ → Option (α × List UInt8 × σ)

def Reader.bind {σ α β : Type} (r : Reader σ α) (f : α → Reader σ β) : Reader σ β :=
  fun bs s => match r bs s with
    | none => none
    | some (a, rest, s') => f a rest s'

instance {σ : Type} : Monad (Reader σ) where
  pure a := fun bs s => some (a, bs, s)
  bind := Reader.bind

def take {σ : Type} (n : ℕ) : Reader σ (List UInt8) :=
  fun bs s => if bs.length < n then none else some (bs.take n, bs.drop n, s)

def word {σ : Type} (w : ℕ) : Reader σ ℕ := do
  let bs ← take w
  pure (decode bs)

def check {σ : Type} (p : Prop) [Decidable p] : Reader σ Unit :=
  fun bs s => if p then some ((), bs, s) else none

/-- A change of the carried state alone, which may be refused. -/
def update {σ : Type} (g : σ → Option σ) : Reader σ Unit :=
  fun bs s => (g s).map fun s' => ((), bs, s')

def Reads {σ α : Type} (r : Reader σ α) (s : σ) (bs : List UInt8) (a : α) (s' : σ) : Prop :=
  ∀ rest, r (bs++rest) s = some (a, rest, s')

def Refuses {σ α : Type} (r : Reader σ α) (s : σ) (bs : List UInt8) : Prop :=
  ∀ rest, r (bs++rest) s = none

/-- The reader takes the string exactly when the condition holds. -/
structure Decides {σ α : Type} (r : Reader σ α) (s : σ) (bs : List UInt8) (p : Prop) (a : α)
    (s' : σ) : Prop where
  reads : p → Reads r s bs a s'
  refuses : ¬p → Refuses r s bs

section

variable {σ α β : Type} {r : Reader σ α} {f : α → Reader σ β} {s s' s'' : σ}
  {bs cs : List UInt8} {a : α} {b : β} {p q : Prop}

theorem bind_apply (r : Reader σ α) (f : α → Reader σ β) (bs : List UInt8) (s : σ) :
    (r >>= f) bs s = (match r bs s with
      | none => none
      | some (a, rest, s') => f a rest s') := rfl

theorem bind_reads (hr : Reads r s bs a s') (rest : List UInt8) :
    (r >>= f) (bs++rest) s = f a rest s' := by
  rw [bind_apply, hr]

theorem reads_pure (a : α) (s : σ) : Reads (pure a) s [] a s := fun _ => rfl

theorem reads_bind (hr : Reads r s bs a s') (hf : Reads (f a) s' cs b s'') :
    Reads (r >>= f) s (bs++cs) b s'' := by
  intro rest
  rw [List.append_assoc, bind_reads hr]
  exact hf rest

theorem reads_map {g : α → β} (hr : Reads r s bs a s') :
    Reads (r >>= fun x => pure (g x)) s bs (g a) s' := fun rest => bind_reads hr rest

theorem reads_take (bs : List UInt8) (s : σ) : Reads (take bs.length) s bs bs s := by
  intro rest
  have hl : ¬(bs++rest).length < bs.length := by simp
  rw [take, if_neg hl, List.take_left, List.drop_left]

theorem reads_word {w n : ℕ} (h : n < 256^w) (s : σ) : Reads (word w) s (encode w n) n s := by
  have ht := reads_take (encode w n) s
  rw [encode_length] at ht
  have hm : Reads (word w) s (encode w n) (decode (encode w n)) s := reads_map ht
  rwa [decode_encode w n h] at hm

theorem reads_check [Decidable p] {f : Unit → Reader σ β} (hp : p) (hf : Reads (f ()) s bs b s') :
    Reads (check p >>= f) s bs b s' := by
  intro rest
  rw [bind_apply, check, if_pos hp]
  exact hf rest

theorem decides_pure (a : α) (s : σ) : Decides (pure a) s [] True a s :=
  ⟨fun _ => reads_pure a s,fun h => absurd trivial h⟩

theorem decides_congr (h : p ↔ q) (hr : Decides r s bs p a s') : Decides r s bs q a s' :=
  ⟨fun hq => hr.reads (h.mpr hq),fun hq => hr.refuses (fun hp => hq (h.mp hp))⟩

theorem decides_bind (hr : Decides r s bs p a s') (hf : p → Decides (f a) s' cs q b s'') :
    Decides (r >>= f) s (bs++cs) (p ∧ q) b s'' := by
  refine ⟨fun h => reads_bind (hr.reads h.1) ((hf h.1).reads h.2),fun h rest => ?_⟩
  rw [List.append_assoc]
  by_cases hp : p
  · rw [bind_reads (hr.reads hp)]
    exact (hf hp).refuses (fun hq => h ⟨hp,hq⟩) rest
  · rw [bind_apply, hr.refuses hp]

theorem decides_read (hr : Reads r s bs a s') (hf : Decides (f a) s' cs q b s'') :
    Decides (r >>= f) s (bs++cs) q b s'' :=
  decides_congr (iff_of_eq (true_and q)) (decides_bind ⟨fun _ => hr,fun h => absurd trivial h⟩ fun _ => hf)

theorem decides_map {g : α → β} (hr : Decides r s bs p a s') :
    Decides (r >>= fun x => pure (g x)) s bs p (g a) s' := by
  refine ⟨fun h => reads_map (hr.reads h),fun h rest => ?_⟩
  rw [bind_apply, hr.refuses h]

/-- A check reads nothing, so the string is left to what follows it. -/
theorem decides_check [Decidable p] {f : Unit → Reader σ β}
    (hf : p → Decides (f ()) s bs q b s') : Decides (check p >>= f) s bs (p ∧ q) b s' := by
  have hc : Decides (check p) s [] p () s := ⟨fun h _ => if_pos h,fun h _ => if_neg h⟩
  exact decides_bind hc hf

theorem decides_update {g : σ → Option σ} {f : Unit → Reader σ β} (hg : ∀ t, g s = some t → t = s')
    (hf : Decides (f ()) s' bs q b s'') :
    Decides (update g >>= f) s bs ((g s).isSome = true ∧ q) b s'' := by
  have hu : Decides (update g) s [] ((g s).isSome = true) () s' := by
    refine ⟨fun h rest => ?_,fun h rest => ?_⟩
    · obtain ⟨t, ht⟩ := Option.isSome_iff_exists.mp h
      rw [update, ht, ← hg t ht]
      rfl
    · rw [update, Option.not_isSome_iff_eq_none.mp h]
      rfl
  exact decides_bind hu fun _ => hf

/-- Whatever the reader is given, what it returns has the property. -/
def Yields (r : Reader σ α) (P : α → Prop) : Prop :=
  ∀ bs s a rest s', r bs s = some (a, rest, s') → P a

variable {P : α → Prop} {Q : β → Prop}

theorem yields_pure (h : P a) : Yields (pure a : Reader σ α) P := by
  rintro bs s a' rest s' ⟨⟩
  exact h

theorem yields_bind (h : ∀ a, Yields (f a) Q) : Yields (r >>= f) Q := by
  intro bs s b rest s' hb
  rw [bind_apply] at hb
  cases hr : r bs s with
  | none => simp [hr] at hb
  | some x =>
    rw [hr] at hb
    exact h _ _ _ _ _ _ hb

theorem yields_check [Decidable p] {f : Unit → Reader σ β} (h : p → Yields (f ()) Q) :
    Yields (check p >>= f) Q := by
  intro bs s b rest s' hb
  by_cases hp : p
  · rw [bind_apply, check, if_pos hp] at hb
    exact h hp _ _ _ _ _ hb
  · simp [bind_apply, check, hp] at hb

/-- What one reader reads the other reads as well, as the image of it. -/
def Maps (r : Reader σ α) (r' : Reader σ β) (g : α → β) : Prop :=
  ∀ bs s a rest s', r bs s = some (a, rest, s') → r' bs s = some (g a, rest, s')

section
variable {γ : Type} {g : α → β}

theorem maps_bind {r : Reader σ γ} {f : γ → Reader σ α} {f' : γ → Reader σ β}
    (h : ∀ c, Maps (f c) (f' c) g) : Maps (r >>= f) (r >>= f') g := by
  intro bs s a rest s' ha
  rw [bind_apply] at ha ⊢
  cases hr : r bs s with
  | none => simp [hr] at ha
  | some x =>
    rw [hr] at ha
    exact h _ _ _ _ _ _ ha

theorem maps_check [Decidable p] [Decidable q] {f : Unit → Reader σ α} {f' : Unit → Reader σ β}
    (hpq : p → q) (h : p → Maps (f ()) (f' ()) g) : Maps (check p >>= f) (check q >>= f') g := by
  intro bs s a rest s' ha
  by_cases hp : p
  · rw [bind_apply, check, if_pos hp] at ha
    rw [bind_apply, check, if_pos (hpq hp)]
    exact h hp _ _ _ _ _ ha
  · simp [bind_apply, check, hp] at ha

end

end

end FastSync.ByteReader
