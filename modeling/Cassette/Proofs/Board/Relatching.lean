import Cassette.Proofs.Board.Regular

/-!
# Latching a value again

A machine may write to the serial ULA the value that it has written before.  The ULA then sets the
receive rate, switches the motor and selects the receive side once more, whatever they were, and
two of these edit the status register and arm or cancel a timer.  But sending is held and the line
is polled exactly while RS423 is selected, and the motor relay is left alone if it has its position
already.  So the write does nothing that shows, except that with RS423 the carrier is dropped, as
it is whenever RS423 is selected.

## Main definitions

* `Standing.Obeys` — a chip is set up as a register of the serial ULA says.
* `Acia.relatched` — the chip after such a register has been latched again.
* `Operation.Spares` — an operation that leaves the lines of the serial ULA to it.
* `Board.Step`, `full`, `bare`, `Repeats` — a history in which values are latched again.

## Main results

* `routed_of_obeys` — to latch a value again is to drop the carrier, or nothing.
* `Course.obeys` — the lines stay as the serial ULA has set them until something else sets them.
* `run_full` — a history with values that are latched again is the history without them.
* `Reachable.latching_again` — **latching a value again is harmless**.
-/

namespace Cassette

namespace Acia

variable {ρ : Type}

/-! ### The chip -/

theorem rated_self (a : Acia ρ) : a.rated a.chip.receiveRate = a := by
  unfold rated
  split <;> rfl

theorem switched_self (a : Acia ρ) : a.switched a.chip.motorOn = a := if_pos rfl

/-- The chip after its register of the serial ULA has been latched again. -/
def relatched (a : Acia ρ) (u : SerialUla) : Acia ρ :=
  if u.selectsRs423 then a.setCarrier false else a

/-- To select what is selected is to drop the carrier, if it is RS423. -/
theorem selected_self {a : Acia ρ} (h : a.IsWired) :
    a.selected a.chip.rs423Selected = if a.chip.rs423Selected then a.setCarrier false else a := by
  have hheld : a.chip.status.sendHeld = a.chip.rs423Selected := h.held
  have hkept := Timer.keep_eq_self h.rs423 (a.chip.select a.chip.rs423Selected).byteTime
  have hselect : a.chip.select a.chip.rs423Selected
      = if a.chip.rs423Selected then a.chip.setCarrier false else a.chip := by
    have hstatus : { a.chip.status with sendHeld := a.chip.rs423Selected } = a.chip.status := by
      rw [← hheld]
    unfold Chip.select
    dsimp only
    rw [hstatus]
  change Acia.mk (a.chip.select a.chip.rs423Selected)
    (Timer.keep a.timers .rs423 a.chip.standing.rs423Selected _) a.transmitDelay = _
  rw [hkept, hselect]
  split <;> rfl

/-- The chip is set up as a register of the serial ULA says. -/
structure Standing.Obeys (k : Standing) (u : SerialUla) : Prop where
  receiveRate : k.receiveRate = u.receiveRate
  motorOn : k.motorOn = u.motorOn
  rs423Selected : k.rs423Selected = u.selectsRs423

theorem standing_relatched (a : Acia ρ) (u : SerialUla) :
    (a.relatched u).chip.standing = a.chip.standing := by
  unfold relatched
  split
  · exact standing_setCarrier a.chip false
  · rfl

/-- A carrier that has been dropped stays so. -/
theorem relatched_relatched (a : Acia ρ) (u : SerialUla) :
    (a.relatched u).relatched u = a.relatched u := by
  unfold relatched
  split <;> rfl

/-- To latch a value again is to drop the carrier, if the value selects RS423, and nothing else. -/
theorem routed_of_obeys {a : Acia ρ} (h : a.IsWired) {u : SerialUla}
    (hobeys : a.chip.standing.Obeys u) : a.routed u = a.relatched u := by
  have hrate : a.rated u.receiveRate = a := by
    rw [← hobeys.receiveRate]
    exact a.rated_self
  have hmotor : a.switched u.motorOn = a := by
    rw [← hobeys.motorOn]
    exact a.switched_self
  unfold routed relatched
  rw [hrate, hmotor, ← hobeys.rs423Selected]
  exact selected_self h

end Acia

namespace Board

variable {ρ : Type} [Acia.SerialPeer ρ]

/-! ### The lines of the serial ULA -/

/-- The operation leaves the lines that the serial ULA has set by `value` to it. -/
def Operation.Spares (value : UInt8) : Operation ρ → Prop
  | .selectRs423 _ | .switchMotor _ | .setReceiveRate _ => False
  | .ulaWrite value' => value' = value
  | .ulaRead => SerialUla.busValue = value
  | _ => True

/-- What a value that is written sets stays so under such an operation. -/
theorem perform_obeys {b b' : Board ρ} (hb : b.Reachable) {value : UInt8}
    (h : b.acia.chip.standing.Obeys ⟨value⟩) {op : Operation ρ} (hop : op.Spares value)
    {reply : Reply} (hperform : b.perform op = .ok (reply, b')) :
    b'.acia.chip.standing.Obeys ⟨value⟩ := by
  have hsetUp : (op.setUp b.acia.chip.standing).Obeys ⟨value⟩ := by
    cases op with
    | selectRs423 | switchMotor | setReceiveRate => exact hop.elim
    | ulaWrite value' =>
      obtain rfl : value' = value := hop
      exact ⟨rfl, rfl, rfl⟩
    | ulaRead =>
      obtain rfl : SerialUla.busValue = value := hop
      exact ⟨rfl, rfl, rfl⟩
    | write address byte =>
      simp only [Operation.setUp]
      split
      · exact ⟨h.receiveRate, h.motorOn, h.rs423Selected⟩
      · split <;> exact ⟨h.receiveRate, h.motorOn, h.rs423Selected⟩
    | _ => exact ⟨h.receiveRate, h.motorOn, h.rs423Selected⟩
  rw [perform_standing hb hperform]
  exact ⟨hsetUp.receiveRate, hsetUp.motorOn, hsetUp.rs423Selected⟩

/-- So it does at any later time. -/
theorem Course.obeys {b b' : Board ρ} (hb : b.Reachable) {value : UInt8}
    (h : b.acia.chip.standing.Obeys ⟨value⟩)
    (hcourse : Course (fun _ op => op.Spares value) b b') :
    b'.acia.chip.standing.Obeys ⟨value⟩ := by
  induction hcourse with
  | refl => exact h
  | perform hcourse hop hperform ih => exact perform_obeys (hcourse.reachable hb) ih hop hperform
  | shelve _ _ ih => exact ih

theorem obeys_of_ulaWrite {b b' : Board ρ} (hb : b.Reachable) {value : UInt8} {reply : Reply}
    (h : b.perform (.ulaWrite value) = .ok (reply, b')) :
    b'.acia.chip.standing.Obeys ⟨value⟩ := by
  rw [perform_standing hb h]
  exact ⟨rfl, rfl, rfl⟩

/-! ### Writing again -/

/-- The write of a value that is obeyed already. -/
theorem perform_ulaWrite {b : Board ρ} (hb : b.Reachable) {value : UInt8}
    (h : b.acia.chip.standing.Obeys ⟨value⟩) :
    b.perform (.ulaWrite value)
      = .ok (.none, { b with acia := b.acia.relatched ⟨value⟩, ula := ⟨value⟩ }) := by
  simp only [perform, Acia.ulaWrite_eq hb.sound, Acia.routed_of_obeys hb.wired h]
  rfl

/-- Any number of such writes, and at least one. -/
theorem run_ulaWrite {b : Board ρ} (hb : b.Reachable) {value : UInt8}
    (h : b.acia.chip.standing.Obeys ⟨value⟩) (count : Nat) :
    b.run (List.replicate (count + 1) (.ulaWrite value))
      = .ok (List.replicate (count + 1) .none,
          { b with acia := b.acia.relatched ⟨value⟩, ula := ⟨value⟩ }) := by
  have hwrite := perform_ulaWrite hb h
  induction count generalizing b with
  | zero => exact run_cons_iff.mpr ⟨_, _, _, hwrite, rfl, rfl⟩
  | succ count ih =>
    -- the writes that follow find the carrier dropped
    have hobeys : (b.acia.relatched ⟨value⟩).chip.standing.Obeys ⟨value⟩ := by
      rw [Acia.standing_relatched]
      exact h
    have hb' := hb.perform hwrite
    have hrest := ih hb' hobeys (perform_ulaWrite hb' hobeys)
    dsimp only at hrest
    rw [Acia.relatched_relatched] at hrest
    exact run_cons_iff.mpr ⟨_, _, _, hwrite, hrest, rfl⟩

/-! ### Histories with writes in between -/

/-- An operation, or a value that is written to the serial ULA once more. -/
inductive Step (ρ : Type) where
  | perform (op : Operation ρ)
  | again (value : UInt8)

/-- The operation of a step. -/
def Step.operation : Step ρ → Operation ρ
  | .perform op => op
  | .again value => .ulaWrite value

/-- The history with the writes in between. -/
def full (steps : List (Step ρ)) : List (Operation ρ) := steps.map Step.operation

/-- The history without them. -/
def bare : List (Step ρ) → List (Operation ρ)
  | [] => []
  | .perform op :: steps => op :: bare steps
  | .again _ :: steps => bare steps

/-- What the history with the writes answers, if the one without them answers `replies`. -/
def answered : List (Step ρ) → List Reply → List Reply
  | .perform _ :: steps, reply :: replies => reply :: answered steps replies
  | .again _ :: steps, replies => .none :: answered steps replies
  | _, _ => []

/-- Every value that is written in between selects the cassette, and the chip then obeys it. -/
def Repeats (b : Board ρ) : List (Step ρ) → Prop
  | [] => True
  | .perform op :: steps => ∀ reply b', b.perform op = .ok (reply, b') → Repeats b' steps
  | .again value :: steps =>
    b.acia.chip.standing.Obeys ⟨value⟩ ∧ (SerialUla.mk value).selectsRs423 = false ∧
      Repeats b steps

/-- What the serial ULA has latched has no part in any operation. -/
theorem perform_latched (b : Board ρ) (u : SerialUla) (op : Operation ρ) :
    ({ b with ula := u } : Board ρ).perform op
      = (b.perform op).map fun (reply, b') => (reply, { b' with ula := op.latched u }) := by
  have hload (b : Board ρ) (tape : Tape) : ({ b with ula := u } : Board ρ).load tape
      = (b.load tape).map fun (reply, b') => (reply, { b' with ula := u }) := by
    unfold load
    dsimp only
    cases b.acia.insert tape <;> rfl
  cases op with
  | read | reset | setCarrier | receive | rewind | ulaReset | attachPeer | attachTone
  | attachNoise => rfl
  | write address value =>
    simp only [perform]
    cases b.acia.write address value <;> rfl
  | selectRs423 selected =>
    simp only [perform]
    cases b.acia.selectRs423 selected <;> rfl
  | switchMotor on =>
    simp only [perform]
    cases b.acia.switchMotor on <;> rfl
  | setReceiveRate rate =>
    simp only [perform]
    cases b.acia.setReceiveRate rate <;> rfl
  | poll cycles =>
    simp only [perform]
    cases b.acia.poll cycles <;> rfl
  | insert data clock =>
    simp only [perform]
    cases (Tape.load data clock).2 with
    | error e => rfl
    | ok tape => exact hload (b.withAcia _) tape
  | eject =>
    simp only [perform]
    cases b.acia.eject <;> rfl
  | reinsert =>
    obtain ⟨acia, ula, shelf⟩ := b
    cases shelf with
    | none => rfl
    | some tape => exact hload ⟨acia, ula, none⟩ tape
  | ulaWrite value =>
    simp only [perform, SerialUla.write]
    cases SerialUla.apply ⟨value⟩ b.acia <;> rfl
  | ulaRead =>
    simp only [perform, SerialUla.read, SerialUla.write]
    cases SerialUla.apply ⟨SerialUla.busValue⟩ b.acia <;> rfl

/-- A history is its first operation, and what follows with the answer to that in front. -/
theorem run_cons (b : Board ρ) (op : Operation ρ) (ops : List (Operation ρ)) :
    b.run (op :: ops) = b.perform op >>= fun first =>
      (first.2.run ops).map fun rest => (first.1 :: rest.1, rest.2) := by
  rw [run]
  refine bind_congr fun first => ?_
  obtain ⟨reply, b'⟩ := first
  dsimp only
  cases b'.run ops <;> rfl

/-- A history with values that are latched again is the history without them, but for what the
serial ULA has latched. -/
theorem run_full {b : Board ρ} (hb : b.Reachable) {steps : List (Step ρ)}
    (h : b.Repeats steps) (u : SerialUla) :
    ({ b with ula := u } : Board ρ).run (full steps)
      = (b.run (bare steps)).map fun (replies, b') =>
          (answered steps replies, { b' with ula := (full steps).foldl Operation.latched u }) := by
  induction steps generalizing b u with
  | nil => rfl
  | cons step steps ih =>
    cases step with
    | perform op =>
      -- both histories perform the operation, and fail together or go on alike
      have hfirst := perform_latched b u op
      change Board.run _ (op :: full steps) = (b.run (op :: bare steps)).map _
      rw [run_cons, run_cons, hfirst]
      cases hperform : b.perform op with
      | error fault => rfl
      | ok result =>
        obtain ⟨reply, b'⟩ := result
        have hrest := ih (hb.perform hperform) (h reply b' hperform) (op.latched u)
        change Except.map _ (Board.run { b' with ula := op.latched u } (full steps))
          = Except.map _ (Except.map _ (b'.run (bare steps)))
        rw [hrest]
        cases b'.run (bare steps) <;> rfl
    | again value =>
      -- the write leaves the chip alone, and the other history has not moved
      obtain ⟨hobeys, hcassette, hrest⟩ := h
      have hnothing : b.acia.relatched ⟨value⟩ = b.acia := by
        unfold Acia.relatched
        rw [hcassette]
        rfl
      have hwrite := perform_latched b u (.ulaWrite value)
      rw [perform_ulaWrite hb hobeys, hnothing] at hwrite
      have hrun := ih hb hrest ⟨value⟩
      change Board.run _ (.ulaWrite value :: full steps) = (b.run (bare steps)).map _
      rw [run_cons, hwrite]
      change Except.map _ (Board.run { b with ula := ⟨value⟩ } (full steps)) = _
      rw [hrun]
      cases b.run (bare steps) <;> rfl

/-- A value that the chip obeys may be written wherever nothing but the serial ULA has set its lines
before. -/
theorem repeats_of_spares {b : Board ρ} (hb : b.Reachable) {value : UInt8}
    (hcassette : (SerialUla.mk value).selectsRs423 = false)
    (h : b.acia.chip.standing.Obeys ⟨value⟩) {steps : List (Step ρ)}
    (hspares : ∀ op, .perform op ∈ steps → op.Spares value)
    (hagain : ∀ value', .again value' ∈ steps → value' = value) : b.Repeats steps := by
  induction steps generalizing b with
  | nil => trivial
  | cons step steps ih =>
    have hspares' : ∀ op, .perform op ∈ steps → op.Spares value :=
      fun op hop => hspares op (List.mem_cons_of_mem _ hop)
    have hagain' : ∀ value', .again value' ∈ steps → value' = value :=
      fun value' hvalue => hagain value' (List.mem_cons_of_mem _ hvalue)
    cases step with
    | perform op =>
      intro reply b' hperform
      have hobeys := perform_obeys hb h (hspares op List.mem_cons_self) hperform
      exact ih (hb.perform hperform) hobeys hspares' hagain'
    | again value' =>
      obtain rfl := hagain value' List.mem_cons_self
      exact ⟨h, hcassette, ih hb h hspares' hagain'⟩

/-- **Latching a value again is harmless.**  In any state of a board let the chip be set up as a
value says that might be written to the serial ULA, as it is at any time after that value was
written if nothing else has set the rate, the motor or the selection since.  To write the value,
once or any number of times, leaves the chip with its registers, devices and timers, its deck and
its trace as they are, but with the carrier dropped if the value selects RS423.  So with the
cassette selected a history with such writes anywhere in it fails where the history without them
fails, or comes to the same answers and the same board, on which the serial ULA has latched what
was last written. -/
theorem Reachable.latching_again {b : Board ρ} (hb : b.Reachable) :
    (∀ value, b.acia.chip.standing.Obeys ⟨value⟩ → ∀ count,
      b.run (List.replicate (count + 1) (.ulaWrite value))
        = .ok (List.replicate (count + 1) .none,
            { b with
              acia := if (SerialUla.mk value).selectsRs423 then b.acia.setCarrier false else b.acia
              ula := ⟨value⟩ })) ∧
    (∀ value reply b₁ b₂, b.perform (.ulaWrite value) = .ok (reply, b₁) →
      Course (fun _ op => op.Spares value) b₁ b₂ → b₂.acia.chip.standing.Obeys ⟨value⟩) ∧
    (∀ steps, b.Repeats steps →
      b.run (full steps) = (b.run (bare steps)).map fun (replies, b') =>
        (answered steps replies, { b' with ula := (full steps).foldl Operation.latched b.ula })) ∧
    ∀ value steps, (SerialUla.mk value).selectsRs423 = false →
      b.acia.chip.standing.Obeys ⟨value⟩ →
      (∀ op, .perform op ∈ steps → op.Spares value) →
      (∀ value', .again value' ∈ steps → value' = value) → b.Repeats steps := by
  refine ⟨fun value h count => run_ulaWrite hb h count, ?_, fun steps h => run_full hb h b.ula,
    fun value steps hcassette h => repeats_of_spares hb hcassette h⟩
  intro value reply b₁ b₂ hwrite hcourse
  exact hcourse.obeys (hb.perform hwrite) (obeys_of_ulaWrite hb hwrite)

/-- A board that plays a tape, with the motor switched by the serial ULA. -/
def latchedPlaying : Board Unit :=
  ({ plain with shelf := some (.tapefile (.ofImage [0x41, 0x42] .standard)) } : Board Unit).after
    [.reinsert, .ulaWrite 0x85, .poll 3000]

/-- A byte arrives and is read, and the value is written before that and in between. -/
def fetching : List (Step Unit) :=
  [.again 0x85, .perform (.poll 600000), .again 0x85, .again 0x85, .perform (.read 0),
    .perform (.read 1)]

/-- Neither three writes at once nor those while the tape plays leave anything behind. -/
theorem latching_again_playing :
    latchedPlaying.Reachable ∧ latchedPlaying.acia.timers.pending = 1 ∧
      latchedPlaying.acia.chip.standing.Obeys ⟨0x85⟩ ∧
      latchedPlaying.run (List.replicate 3 (.ulaWrite 0x85))
        = .ok (List.replicate 3 .none, latchedPlaying) ∧
      ∃ replies b', latchedPlaying.run (bare fetching) = .ok (replies, b') ∧
        latchedPlaying.run (full fetching)
          = .ok (answered fetching replies, { b' with ula := ⟨0x85⟩ }) := by
  have hreachable : latchedPlaying.Reachable := (reachable_plain.shelve _).after _
  have hobeys : latchedPlaying.acia.chip.standing.Obeys ⟨0x85⟩ :=
    ⟨by decide +kernel, by decide +kernel, by decide +kernel⟩
  have hula : latchedPlaying.ula = ⟨0x85⟩ := by decide +kernel
  have hsame : { latchedPlaying with ula := ⟨0x85⟩ } = latchedPlaying := by rw [← hula]
  obtain ⟨hagain, -, hfull, hrepeats⟩ := hreachable.latching_again
  obtain ⟨replies, hbare⟩ := run_after latchedPlaying (bare fetching) (by decide +kernel)
  refine ⟨hreachable, by decide +kernel, hobeys, ?_, replies, _, hbare, ?_⟩
  · have hwrites := hagain 0x85 hobeys 2
    rw [if_neg (by decide)] at hwrites
    exact hwrites.trans (congrArg (fun b => Except.ok (List.replicate 3 Reply.none, b)) hsame)
  · have hspares : ∀ op, .perform op ∈ fetching → op.Spares 0x85 := by
      intro op hop
      obtain rfl | rfl | rfl : op = .poll 600000 ∨ op = .read 0 ∨ op = .read 1 := by
        simpa [fetching] using hop
      all_goals trivial
    have hvalues : ∀ value, .again value ∈ fetching → value = 0x85 := by
      intro value hvalue
      simpa [fetching] using hvalue
    rw [hfull fetching (hrepeats 0x85 fetching (by decide) hobeys hspares hvalues), hbare]
    rfl

end Board

end Cassette
