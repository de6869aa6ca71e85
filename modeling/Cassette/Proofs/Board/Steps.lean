import Cassette.Board
import Cassette.Proofs.Acia.Deck
import Cassette.Proofs.Scheduler.Agenda

/-!
# Operations in small steps

Apart from the passing of time, an operation of the board is a number of small steps, each of
which changes the chip but not the deck, or gives the timers one command; and before the first
of them the operation may have handled the tape in the deck and the one on the shelf.

## Main definitions

* `Acia.Steps` — small steps, one after another.
* `Board.handled` — the tapes in the deck and on the shelf after an operation.

## Main results

* `perform_steps` — every operation but the passing of time handles the tapes and then takes
  small steps.
* `perform_cases` — an operation is the passing of time or not.
-/

namespace Cassette

namespace Acia

variable {ρ : Type}

/-- Small steps, one after another. -/
inductive Steps : Acia ρ → Acia ρ → Prop where
  | refl (a : Acia ρ) : Steps a a
  /-- The chip changes, but not the deck. -/
  | chip {a b : Acia ρ} (h : Steps a b) (f : Chip ρ → Chip ρ) (hf : SameDeck b.chip (f b.chip)) :
    Steps a (b.onChip f)
  /-- The timers take a command. -/
  | command {a b b' : Acia ρ} (h : Steps a b) {c : Scheduler.Command} (hc : b.command c = .ok b') :
    Steps a b'

/-- The chip with another tape in the deck, or none. -/
def setDeck (a : Acia ρ) (deck : Option Tape) : Acia ρ := a.onChip ({ · with deck })

/-- A command neither looks at the deck nor changes it. -/
theorem command_setDeck {a a' : Acia ρ} {c : Scheduler.Command} (h : a.command c = .ok a')
    (deck : Option Tape) : (a.setDeck deck).command c = .ok (a'.setDeck deck) := by
  have htimers : (a.setDeck deck).timers = a.timers := rfl
  unfold command at h ⊢
  rw [htimers]
  cases hc : c.apply a.timers with
  | ok timers =>
    rw [hc] at h
    rw [← Except.ok.inj h]
    rfl
  | error fault =>
    rw [hc] at h
    simp at h

theorem chip_of_command {a a' : Acia ρ} {c : Scheduler.Command} (h : a.command c = .ok a') :
    a'.chip = a.chip := by
  unfold command at h
  split at h
  · rw [← Except.ok.inj h]
  · simp at h

namespace Steps

variable {a a' b : Acia ρ}

theorem sameDeck (h : Steps a b) : SameDeck a.chip b.chip := by
  induction h with
  | refl => exact .refl _
  | chip _ f hf ih => exact ih.trans hf
  | command _ hc ih => rwa [chip_of_command hc]

theorem trans (h : Steps a a') (h' : Steps a' b) : Steps a b := by
  induction h' with
  | refl => exact h
  | chip _ f hf ih => exact ih.chip f hf
  | command _ hc ih => exact ih.command hc

/-- A step that changes neither the deck nor the trace. -/
theorem edit (h : Steps a b) (f : Chip ρ → Chip ρ) (hdeck : (f b.chip).deck = b.chip.deck)
    (herror : (f b.chip).deckError = b.chip.deckError)
    (hmoments : (f b.chip).moments = b.chip.moments) : Steps a (b.onChip f) := by
  refine h.chip f ⟨hdeck, herror, ?_, ?_⟩
  · unfold Chip.calls Chip.trace
    rw [hmoments]
  · unfold Chip.deckPolls Chip.trace
    rw [hmoments]

theorem record (h : Steps a b) {e : Event} (he : e.ofDeck = false) : Steps a (b.record e) :=
  h.chip _ (sameDeck_record b.now b.chip he)

theorem noise (h : Steps a b) {e : Event} (he : e.ofDeck = false) : Steps a (b.noise e) := by
  unfold Acia.noise
  split
  · exact h.record he
  · exact h

end Steps

/-! ### The operations -/

section

variable {a a' : Acia ρ}

theorem steps_tell (a : Acia ρ) (notices : List Tape.Notice) : Steps a (a.tell notices) := by
  unfold tell
  induction notices generalizing a with
  | nil => exact .refl a
  | cons notice notices ih => exact ((Steps.refl a).record rfl).trans (ih _)

theorem tell_setDeck (a : Acia ρ) (notices : List Tape.Notice) (deck : Option Tape) :
    (a.tell notices).setDeck deck = (a.setDeck deck).tell notices := by
  unfold tell
  induction notices generalizing a with
  | nil => rfl
  | cons notice notices ih => exact ih (a.record (.note (.opening notice)))

theorem steps_read (a : Acia ρ) (address : UInt16) : Steps a (a.read address).2 := by
  unfold Acia.read
  split
  · exact (Steps.refl a).edit (fun c => { c with status := c.status.acknowledge }) rfl rfl rfl
  · exact .refl a

theorem steps_write [SerialPeer ρ] {address : UInt16} {value : UInt8}
    (h : a.write address value = .ok a') : Steps a a' := by
  unfold Acia.write at h
  split at h
  · obtain ⟨b, hc, h⟩ := bind_ok h
    rw [← Except.ok.inj h]
    refine Steps.chip (.command ((Steps.refl a).edit _ ?_ ?_ ?_) hc) _ (sameDeck_transmit _ _ value)
    · rfl
    · rfl
    · rfl
  · split at h
    · rw [← Except.ok.inj h]
      exact (Steps.refl a).edit _ rfl rfl rfl
    · rw [← Except.ok.inj h]
      exact (Steps.refl a).edit _ rfl rfl rfl

theorem steps_selectRs423 {selected : Bool} (h : a.selectRs423 selected = .ok a') :
    Steps a a' := by
  unfold Acia.selectRs423 at h
  refine Steps.command ((Steps.refl a).edit _ ?_ ?_ ?_) h
  all_goals
    dsimp only
    split <;> rfl

theorem steps_setReceiveRate {rate : UInt32} (h : a.setReceiveRate rate = .ok a') :
    Steps a a' := by
  unfold Acia.setReceiveRate at h
  split at h
  · simp at h
  · rw [← Except.ok.inj h]
    exact (Steps.refl a).edit _ rfl rfl rfl

theorem steps_switchMotor {on : Bool} (h : a.switchMotor on = .ok a') : Steps a a' := by
  unfold Acia.switchMotor at h
  split at h
  · rw [← Except.ok.inj h]
    exact .refl a
  · have hmotor : Steps a ((a.onChip ({ · with motorOn := on })).record (.note (.motor on))) :=
      ((Steps.refl a).edit ({ · with motorOn := on }) rfl rfl rfl).record rfl
    split at h
    · exact (hmotor.noise rfl).command h
    · obtain ⟨b, hc, h⟩ := bind_ok h
      rw [← Except.ok.inj h]
      have hsilent := (hmotor.chip _ (sameDeck_playTone _ _ .zero)).command hc
      exact (hsilent.chip _ (sameDeck_cassetteCarrier _ false)).noise rfl

theorem insert_steps {tape : Tape} {replaced : Option Tape}
    (h : a.insert tape = .ok (replaced, a')) :
    replaced = a.chip.deck ∧ Steps (a.setDeck (some tape)) a' := by
  unfold Acia.insert at h
  obtain ⟨b, hc, h⟩ := bind_ok h
  -- the notice may as well be told after the tape has gone into the deck
  have hcancelled : Steps (a.setDeck (some tape)) b :=
    ((Steps.refl (a.setDeck (some tape))).record
      (e := .note (.inserted tape.format)) rfl).command hc
  dsimp only at h
  split at h
  · obtain ⟨b', hc', h⟩ := bind_ok h
    obtain ⟨rfl, rfl⟩ := Prod.mk.inj (Except.ok.inj h)
    exact ⟨rfl, hcancelled.command hc'⟩
  · obtain ⟨rfl, rfl⟩ := Prod.mk.inj (Except.ok.inj h)
    exact ⟨rfl, hcancelled⟩

theorem eject_steps {tape : Option Tape} (h : a.eject = .ok (tape, a')) :
    tape = a.chip.deck ∧ Steps (a.setDeck none) a' := by
  unfold Acia.eject at h
  obtain ⟨b, hc, h⟩ := bind_ok h
  obtain ⟨rfl, rfl⟩ := Prod.mk.inj (Except.ok.inj h)
  exact ⟨rfl, (Steps.refl _).command (command_setDeck hc none)⟩

theorem rewind_steps (a : Acia ρ) : Steps (a.setDeck (a.chip.deck.map Tape.rewind)) a.rewind := by
  unfold Acia.rewind
  cases hdeck : a.chip.deck with
  | none =>
    have hself : a.setDeck (none.map Tape.rewind) = a := by
      rw [show none.map Tape.rewind = a.chip.deck from hdeck.symm]
      rfl
    rw [hself]
    exact .refl a
  | some tape =>
    exact (Steps.refl (a.setDeck (some tape.rewind))).record (e := .note .rewinding) rfl

theorem steps_ula {value : UInt8} {u : SerialUla} (h : SerialUla.write value a = .ok (u, a')) :
    Steps a a' := by
  unfold SerialUla.write at h
  obtain ⟨b, happly, h⟩ := bind_ok h
  obtain ⟨-, rfl⟩ := Prod.mk.inj (Except.ok.inj h)
  unfold SerialUla.apply at happly
  obtain ⟨a₁, hrate, happly⟩ := bind_ok happly
  obtain ⟨a₂, hmotor, hselect⟩ := bind_ok happly
  exact ((steps_setReceiveRate hrate).trans (steps_switchMotor hmotor)).trans
    (steps_selectRs423 hselect)

end

end Acia

namespace Board

variable {ρ : Type}

/-! ### Whole operations -/

/-- The tapes in the deck and on the shelf after an operation other than the passing of time. -/
def handled (b : Board ρ) : Operation ρ → Option Tape × Option Tape
  | .insert data clock =>
    match (Tape.load data clock).2 with
    | .ok tape => (some tape, b.acia.chip.deck.or b.shelf)
    | .error _ => (b.acia.chip.deck, b.shelf)
  | .eject => (none, b.acia.chip.deck.or b.shelf)
  | .reinsert =>
    match b.shelf with
    | none => (b.acia.chip.deck, none)
    | some tape => (some tape, b.acia.chip.deck)
  | .rewind => (b.acia.chip.deck.map Tape.rewind, b.shelf)
  | _ => (b.acia.chip.deck, b.shelf)

theorem load_steps {b b' : Board ρ} {tape : Tape} {reply : Reply}
    (h : b.load tape = .ok (reply, b')) :
    Acia.Steps (b.acia.setDeck (some tape)) b'.acia ∧ b'.shelf = b.acia.chip.deck.or b.shelf := by
  unfold load at h
  obtain ⟨⟨replaced, a⟩, hinsert, h⟩ := bind_ok h
  obtain ⟨-, rfl⟩ := Prod.mk.inj (Except.ok.inj h)
  obtain ⟨rfl, hsteps⟩ := Acia.insert_steps hinsert
  exact ⟨hsteps, rfl⟩

/-- An operation other than the passing of time handles the tapes and then takes small steps. -/
theorem perform_steps [Acia.SerialPeer ρ] {b b' : Board ρ} {op : Operation ρ} {reply : Reply}
    (h : b.perform op = .ok (reply, b')) (hop : ∀ cycles, op ≠ .poll cycles) :
    Acia.Steps (b.acia.setDeck (b.handled op).1) b'.acia ∧ b'.shelf = (b.handled op).2 := by
  cases op with
  | poll cycles => exact absurd rfl (hop cycles)
  | read address =>
    obtain ⟨-, rfl⟩ := Prod.mk.inj (Except.ok.inj h)
    exact ⟨Acia.steps_read b.acia address, rfl⟩
  | write address value =>
    obtain ⟨a, ha, h⟩ := bind_ok h
    obtain ⟨-, rfl⟩ := Prod.mk.inj (Except.ok.inj h)
    exact ⟨Acia.steps_write ha, rfl⟩
  | reset =>
    obtain ⟨-, rfl⟩ := Prod.mk.inj (Except.ok.inj h)
    exact ⟨(Acia.Steps.refl _).edit (fun c => { c with status := c.status.reset }) rfl rfl rfl, rfl⟩
  | selectRs423 selected =>
    obtain ⟨a, ha, h⟩ := bind_ok h
    obtain ⟨-, rfl⟩ := Prod.mk.inj (Except.ok.inj h)
    exact ⟨Acia.steps_selectRs423 ha, rfl⟩
  | setCarrier level =>
    obtain ⟨-, rfl⟩ := Prod.mk.inj (Except.ok.inj h)
    exact ⟨(Acia.Steps.refl _).edit (·.setCarrier level) rfl rfl rfl, rfl⟩
  | receive byte =>
    obtain ⟨-, rfl⟩ := Prod.mk.inj (Except.ok.inj h)
    exact ⟨(Acia.Steps.refl _).edit (·.receive byte) rfl rfl rfl, rfl⟩
  | switchMotor on =>
    obtain ⟨a, ha, h⟩ := bind_ok h
    obtain ⟨-, rfl⟩ := Prod.mk.inj (Except.ok.inj h)
    exact ⟨Acia.steps_switchMotor ha, rfl⟩
  | setReceiveRate rate =>
    obtain ⟨a, ha, h⟩ := bind_ok h
    obtain ⟨-, rfl⟩ := Prod.mk.inj (Except.ok.inj h)
    exact ⟨Acia.steps_setReceiveRate ha, rfl⟩
  | insert data clock =>
    simp only [perform] at h
    unfold handled
    have htold := Acia.steps_tell b.acia (Tape.load data clock).1
    split at h
    · next e he =>
      obtain ⟨-, rfl⟩ := Prod.mk.inj (Except.ok.inj h)
      simp only [he]
      exact ⟨htold, rfl⟩
    · next tape htape =>
      obtain ⟨hsteps, hshelf⟩ := load_steps h
      simp only [htape]
      refine ⟨?_, ?_⟩
      · change Acia.Steps ((b.acia.tell _).setDeck (some tape)) b'.acia at hsteps
        rw [Acia.tell_setDeck] at hsteps
        exact (Acia.steps_tell _ _).trans hsteps
      · rw [← htold.sameDeck.deck]
        exact hshelf
  | eject =>
    obtain ⟨⟨tape, a⟩, ha, h⟩ := bind_ok h
    obtain ⟨-, rfl⟩ := Prod.mk.inj (Except.ok.inj h)
    obtain ⟨rfl, hsteps⟩ := Acia.eject_steps ha
    exact ⟨hsteps, rfl⟩
  | reinsert =>
    simp only [perform] at h
    unfold handled
    split at h
    · next hshelf =>
      obtain ⟨-, rfl⟩ := Prod.mk.inj (Except.ok.inj h)
      rw [hshelf]
      exact ⟨.refl _, rfl⟩
    · next tape hshelf =>
      obtain ⟨hsteps, hshelf'⟩ := load_steps h
      rw [hshelf]
      refine ⟨hsteps, ?_⟩
      rw [hshelf']
      exact Option.or_none
  | rewind =>
    obtain ⟨-, rfl⟩ := Prod.mk.inj (Except.ok.inj h)
    exact ⟨Acia.rewind_steps b.acia, rfl⟩
  | ulaWrite value =>
    obtain ⟨⟨u, a⟩, ha, h⟩ := bind_ok h
    obtain ⟨-, rfl⟩ := Prod.mk.inj (Except.ok.inj h)
    exact ⟨Acia.steps_ula ha, rfl⟩
  | ulaRead =>
    obtain ⟨⟨value, u, a⟩, ha, h⟩ := bind_ok h
    obtain ⟨-, rfl⟩ := Prod.mk.inj (Except.ok.inj h)
    obtain ⟨⟨u, a⟩, hwrite, ha⟩ := bind_ok ha
    obtain ⟨-, hu⟩ := Prod.mk.inj (Except.ok.inj ha)
    obtain ⟨rfl, rfl⟩ := Prod.mk.inj hu
    exact ⟨Acia.steps_ula hwrite, rfl⟩
  | ulaReset =>
    obtain ⟨-, rfl⟩ := Prod.mk.inj (Except.ok.inj h)
    exact ⟨.refl _, rfl⟩
  | attachPeer peer =>
    obtain ⟨-, rfl⟩ := Prod.mk.inj (Except.ok.inj h)
    exact ⟨(Acia.Steps.refl _).edit ({ · with peer }) rfl rfl rfl, rfl⟩
  | attachTone attached =>
    obtain ⟨-, rfl⟩ := Prod.mk.inj (Except.ok.inj h)
    exact ⟨(Acia.Steps.refl _).edit ({ · with toneAttached := attached }) rfl rfl rfl, rfl⟩
  | attachNoise attached =>
    obtain ⟨-, rfl⟩ := Prod.mk.inj (Except.ok.inj h)
    exact ⟨(Acia.Steps.refl _).edit ({ · with noiseAttached := attached }) rfl rfl rfl, rfl⟩

/-- Only the passing of time runs the timers. -/
theorem perform_cases [Acia.SerialPeer ρ] {b b' : Board ρ} {op : Operation ρ} {reply : Reply}
    (h : b.perform op = .ok (reply, b')) :
    (∃ cycles e, op = .poll cycles ∧ b.acia.poll cycles = .ok (e, b'.acia) ∧
      b' = b.withAcia b'.acia) ∨
      ∀ cycles, op ≠ .poll cycles := by
  by_cases hop : ∃ cycles, op = .poll cycles
  · obtain ⟨cycles, rfl⟩ := hop
    obtain ⟨⟨e, a⟩, ha, h⟩ := bind_ok h
    obtain ⟨-, rfl⟩ := Prod.mk.inj (Except.ok.inj h)
    exact Or.inl ⟨cycles, e, rfl, ha, rfl⟩
  · exact Or.inr fun cycles heq => hop ⟨cycles, heq⟩

end Board

end Cassette
