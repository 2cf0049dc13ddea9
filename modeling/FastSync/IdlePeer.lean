import FastSync.ReceiveLoop

/-!
# An idle peer

The receive loop gives up on a connection that has lasted too long, and on one that has
made no progress for too long. Progress is told from the status of a frame alone, and the
clock of the last progress is set before it is looked at.
-/

set_option autoImplicit false

namespace FastSync.IdlePeer
open DeleteCommit ReceiveLoop
open ReceiverSession (Clock maxSessionIdleSec maxSessionWallSec receiverTimeLimitExceeded noTree)

def endsLoop : Frame → Bool
  | .finished => true
  | .unexpected => true
  | _ => false

def dispatched (cfg : Config) (sink : Sink) : Clock → List Input → State → List Input
  | _, [], _ => []
  | clock, input::rest, st =>
    match receiverNoteStatus clock input with
    | none => []
    | some clock =>
      if endsLoop input.frame then []
      else
        let r := receiverDispatchStatus cfg sink input.tree input.frame (readStatus input.frame st)
        input::(if r.2 = .next then dispatched cfg sink clock rest r.1 else [])

def Entryless : Frame → Prop
  | .keepalive _ => True
  | .checkBatch _ => True
  | .dirTimes entries => entries = some []
  | .chunk files => files = some []
  | .manifest manifest _ => manifest = some ⟨[],[],[],[]⟩
  | .deletePlan plan _ => ∃ p, plan = some p ∧ p.dirs = [] ∧ p.files = [] ∧
      ∀ config ∈ p.config, config = ⟨[],[],[]⟩
  | _ => False

/-- The clock can be read at every frame and goes forward. -/
def Forward : ℤ → List Input → Prop
  | _, [] => True
  | t, input::rest => ∃ u, input.now = some u ∧ t ≤ u ∧ Forward u rest

/-- When all frames dispatched from some time on are of this kind, none is dispatched once
the idle limit is over. -/
def IdleBounded (A : Frame → Prop) : Prop :=
  ∀ cfg sink start inputs t₀, start ≤ t₀ → Forward start inputs →
    let frames := dispatched cfg sink ⟨start,start⟩ inputs ReceiveLoop.start
    (∀ x ∈ frames, ∀ t, x.now = some t → t₀ ≤ t → A x.frame) →
      ∀ x ∈ frames, ∀ t, x.now = some t → t < t₀+maxSessionIdleSec

section Loop
variable {cfg : Config} {sink : Sink} {clock : Clock} {input : Input} {rest : List Input}
variable {st : State}

theorem note_cases {clock' : Clock} (h : receiverNoteStatus clock input = some clock') :
    clock'.sessionStart = clock.sessionStart ∧
    (clock'.lastProgress = if statusCountsAsProgress input.frame then
      input.now.getD clock.lastProgress else clock.lastProgress) ∧
    ∀ t, input.now = some t → t < clock.sessionStart+maxSessionWallSec ∧
      t < clock'.lastProgress+maxSessionIdleSec := by
  unfold receiverNoteStatus receiverTimeLimitExceeded at h
  cases hp : statusCountsAsProgress input.frame <;> simp [hp] at h <;>
    obtain ⟨⟨hwall,hidle⟩,rfl⟩ := h <;> simp <;> intro t ht <;> simp [ht] at hwall hidle ⊢ <;>
    omega

theorem dispatched_cons {x : Input} (hx : x ∈ dispatched cfg sink clock (input::rest) st) :
    ∃ clock', receiverNoteStatus clock input = some clock' ∧
      ∃ st' tail, dispatched cfg sink clock (input::rest) st = input::tail ∧
        (tail = [] ∨ tail = dispatched cfg sink clock' rest st') := by
  rw [dispatched] at hx ⊢
  cases hn : receiverNoteStatus clock input with
  | none => simp [hn] at hx
  | some clock' =>
    cases he : endsLoop input.frame with
    | true => simp [hn, he] at hx
    | false =>
      refine ⟨clock',rfl,(receiverDispatchStatus cfg sink input.tree input.frame
        (readStatus input.frame st)).1,_,rfl,?_⟩
      split
      · exact .inr rfl
      · exact .inl rfl

theorem dispatched_wall (inputs : List Input) :
    ∀ x ∈ dispatched cfg sink clock inputs st, ∀ t, x.now = some t →
      t < clock.sessionStart+maxSessionWallSec := by
  induction inputs generalizing clock st with
  | nil => simp [dispatched]
  | cons input rest ih =>
    intro x hx t ht
    obtain ⟨clock',hn,st',tail,heq,htail⟩ := dispatched_cons hx
    obtain ⟨hstart,-,hnow⟩ := note_cases hn
    rw [heq] at hx
    rcases List.mem_cons.mp hx with rfl | hx
    · exact (hnow t ht).1
    · rcases htail with rfl | rfl
      · cases hx
      · exact hstart ▸ ih x hx t ht

theorem dispatched_idle {A : Frame → Prop} {t₀ : ℤ}
    (hA : ∀ f, A f → statusCountsAsProgress f = false) {inputs : List Input}
    (hlast : clock.lastProgress ≤ t₀)
    (hkind : ∀ x ∈ dispatched cfg sink clock inputs st, ∀ t, x.now = some t → t₀ ≤ t → A x.frame) :
    ∀ x ∈ dispatched cfg sink clock inputs st, ∀ t, x.now = some t → t < t₀+maxSessionIdleSec := by
  induction inputs generalizing clock st with
  | nil => simp [dispatched]
  | cons input rest ih =>
    intro x hx t ht
    obtain ⟨clock',hn,st',tail,heq,htail⟩ := dispatched_cons hx
    obtain ⟨-,hprogress,hnow⟩ := note_cases hn
    rw [heq] at hx hkind
    have hlast' : clock'.lastProgress ≤ t₀ := by
      rw [hprogress]
      cases hu : input.now with
      | none => simpa using hlast
      | some u =>
        by_cases hlate : t₀ ≤ u
        · simpa [hA _ (hkind input List.mem_cons_self u hu hlate)] using hlast
        · simp only [Option.getD_some]
          split <;> omega
    rcases List.mem_cons.mp hx with rfl | hx
    · have := (hnow t ht).2
      omega
    · rcases htail with rfl | rfl
      · cases hx
      · exact ih hlast' (fun y hy => hkind y (List.mem_cons_of_mem _ hy)) x hx t ht

end Loop

def plainConfig : Config :=
  ⟨[],false,[],none,false,false,false,false,false,false,false,0⟩

def plainSink : Sink := ⟨false,false,false,false,false⟩

def lateFrame (f : Frame) : Input := ⟨f,noTree,some maxSessionIdleSec⟩

theorem late_progress_dispatched (cfg : Config) (sink : Sink) {f : Frame} (hf : Entryless f)
    (hp : statusCountsAsProgress f = true) :
    dispatched cfg sink ⟨0,0⟩ [lateFrame f] ReceiveLoop.start = [lateFrame f] := by
  have hnote : receiverNoteStatus ⟨0,0⟩ (lateFrame f) = some ⟨0,maxSessionIdleSec⟩ := by
    simp [receiverNoteStatus, lateFrame, hp, receiverTimeLimitExceeded, maxSessionIdleSec,
      maxSessionWallSec]
  have hends : endsLoop f = false := by cases f <;> simp_all [Entryless, endsLoop]
  rw [dispatched, hnote]
  show (if endsLoop f then [] else lateFrame f::(if _ then dispatched cfg sink _ [] _ else [])) = _
  rw [hends, if_neg Bool.false_ne_true, dispatched, ite_self]

/-- The wall limit ends every connection. The idle limit ends one whose frames carry no
entry if and only if none of them counts as progress, which an empty manifest, plan and
chunk do. -/
theorem idle_limit_iff (A : Frame → Prop) (hA : ∀ f, A f → Entryless f) :
    (IdleBounded A ↔ ∀ f, A f → statusCountsAsProgress f = false) ∧
    ∀ cfg sink start inputs,
      ∀ x ∈ dispatched cfg sink ⟨start,start⟩ inputs ReceiveLoop.start, ∀ t, x.now = some t →
        t < start+maxSessionWallSec := by
  refine ⟨⟨fun h f hf => ?_,fun h => ?_⟩,fun _ _ _ inputs => dispatched_wall inputs⟩
  · by_contra hp
    have hone := late_progress_dispatched plainConfig plainSink (hA f hf) (by simpa using hp)
    have hlate := h plainConfig plainSink 0 [lateFrame f] 0 le_rfl ⟨_,rfl,by decide,trivial⟩
    simp only [hone] at hlate
    have := hlate (by simp [lateFrame, hf]) (lateFrame f) (by simp) _ rfl
    omega
  · intro cfg sink start inputs t₀ hstart _ frames hkind
    exact dispatched_idle h hstart hkind

theorem keepalives_bounded : IdleBounded fun f => f = .keepalive true :=
  (idle_limit_iff (fun f => f = .keepalive true) (by simp [Entryless])).1.mpr
    (by simp [statusCountsAsProgress])

/-- Empty chunks hold a connection for hours. -/
theorem empty_chunks_not_idle :
    let inputs := [3000,6000,9000,12000].map fun t => (⟨.chunk (some []),noTree,some t⟩ : Input)
    ¬IdleBounded Entryless ∧ Forward 0 inputs ∧ (∀ x ∈ inputs, Entryless x.frame) ∧
      ∀ cfg sink, dispatched cfg sink ⟨0,0⟩ inputs ReceiveLoop.start = inputs := by
  have hall : ∀ cfg sink, dispatched cfg sink ⟨0,0⟩
      ([3000,6000,9000,12000].map fun t => (⟨.chunk (some []),noTree,some t⟩ : Input))
      ReceiveLoop.start = [3000,6000,9000,12000].map fun t => ⟨.chunk (some []),noTree,some t⟩ :=
    fun _ _ => rfl
  have hforward : Forward 0
      ([3000,6000,9000,12000].map fun t => (⟨.chunk (some []),noTree,some t⟩ : Input)) := by
    simp [Forward]
  refine ⟨fun h => ?_,hforward,by simp [Entryless],hall⟩
  have hlate := h plainConfig plainSink 0 _ 0 le_rfl hforward
  simp only [hall] at hlate
  have := hlate (by simp [Entryless]) ⟨.chunk (some []),noTree,some 12000⟩ (by simp) 12000 rfl
  revert this
  decide

end FastSync.IdlePeer
