import Cassette.Acia.Chip
import Cassette.Proofs.Tape.Beat

/-!
# The deck

Only a turn of the deck changes what the tape in it has played and what it has left to play.
Everything else that happens to the chip leaves the deck as it is.  A turn of the deck adds the
calls of a run of the tape to what has been played, and the deck holds the tape after it, or
has lost it and knows why.

## Main definitions

* `Chip.calls` — what the tapes in the deck have played so far.
* `DeckPoll`, `Chip.deckPolls` — the polls of the tapes in the deck so far.
* `SameDeck` — the deck is as it was.

## Main results

* `sameDeck_playTone`, `sameDeck_pollPeer`, … — what leaves the deck as it is.
* `calls_pollTape`, `deckPolls_pollTape`, `deck_pollTape`, `lost_pollTape` — a turn of the deck.
-/

namespace Cassette.Acia

variable {ρ : Type}

/-- The call to the machine that an event is, if it is one. -/
def Event.call? : Event → Option Tape.Signal
  | .signal s => if s.isCall then some s else none
  | _ => none

/-- What the tapes in the deck have played so far, in order. -/
def Chip.calls (c : Chip ρ) : List Tape.Signal := c.trace.filterMap (·.event.call?)

/-- One poll of the tape in the deck: its cycle, and the delay it gave or why it failed. -/
structure DeckPoll where
  cycle : Cycles
  delay : Except Tape.Error Cycles

/-- The poll that a moment ends: its unit of work is over, or its tape has to be ejected. -/
def Moment.deckPoll? (m : Moment) : Option DeckPoll :=
  match m.event with
  | .pause delay => some ⟨m.cycle, .ok delay⟩
  | .note (.ejecting _ e) => some ⟨m.cycle, .error e⟩
  | _ => none

/-- The polls of the tapes in the deck so far, in order. -/
def Chip.deckPolls (c : Chip ρ) : List DeckPoll := c.trace.filterMap Moment.deckPoll?

/-- The event belongs to a poll of the tape in the deck. -/
def Event.ofDeck : Event → Bool
  | .signal _ | .pause _ | .note (.ejecting _ _) => true
  | _ => false

/-- The deck is as it was. -/
structure SameDeck (c c' : Chip ρ) : Prop where
  deck : c'.deck = c.deck
  deckError : c'.deckError = c.deckError
  calls : c'.calls = c.calls
  deckPolls : c'.deckPolls = c.deckPolls

theorem SameDeck.refl (c : Chip ρ) : SameDeck c c := ⟨rfl, rfl, rfl, rfl⟩

theorem SameDeck.trans {c c' c'' : Chip ρ} (h : SameDeck c c') (h' : SameDeck c' c'') :
    SameDeck c c'' :=
  ⟨h'.deck.trans h.deck, h'.deckError.trans h.deckError, h'.calls.trans h.calls,
    h'.deckPolls.trans h.deckPolls⟩

/-- A deck that lost its tape is empty. -/
def Chip.Lost (c : Chip ρ) : Prop := c.deckError ≠ none → c.deck = none

theorem SameDeck.lost {c c' : Chip ρ} (h : SameDeck c c') (hlost : c.Lost) : c'.Lost := by
  intro herror
  rw [h.deckError] at herror
  exact h.deck.trans (hlost herror)

/-- A deck has a tape, or the reason why it lost it. -/
def Chip.Supplied (c : Chip ρ) : Prop := c.deck = none → c.deckError ≠ none

theorem supplied_of_isSome {c : Chip ρ} (h : c.deck.isSome = true) : c.Supplied := by
  intro hnone
  rw [hnone] at h
  exact absurd h Bool.false_ne_true

theorem SameDeck.supplied {c c' : Chip ρ} (h : SameDeck c c') (hsupplied : c.Supplied) :
    c'.Supplied := by
  intro hnone
  rw [h.deckError]
  exact hsupplied (h.deck.symm.trans hnone)

/-! ### What leaves the deck as it is -/

/-- An event is added to what the trace holds of some kind, if it is of that kind. -/
theorem filter_trace_record (kind : Event → Bool) (now : Cycles) (c : Chip ρ) (e : Event) :
    (c.record now e).trace.filter (kind ·.event)
      = c.trace.filter (kind ·.event) ++ if kind e then [⟨now, e⟩] else [] := by
  unfold Chip.trace Chip.record
  rw [List.reverse_cons, List.filter_append]
  exact congrArg _ List.filter_cons

theorem calls_record (now : Cycles) (c : Chip ρ) (e : Event) :
    (c.record now e).calls = c.calls ++ e.call?.toList := by
  unfold Chip.calls Chip.trace Chip.record
  rw [List.reverse_cons, List.filterMap_append]
  cases h : e.call? <;> simp [h]

theorem calls_record_of_none (now : Cycles) (c : Chip ρ) {e : Event} (h : e.call? = none) :
    (c.record now e).calls = c.calls := by
  rw [calls_record, h]
  exact List.append_nil _

theorem deckPolls_record (now : Cycles) (c : Chip ρ) (e : Event) :
    (c.record now e).deckPolls = c.deckPolls ++ (Moment.deckPoll? ⟨now, e⟩).toList := by
  unfold Chip.deckPolls Chip.trace Chip.record
  rw [List.reverse_cons, List.filterMap_append]
  cases h : Moment.deckPoll? ⟨now, e⟩ <;> simp [h]

theorem sameDeck_record (now : Cycles) (c : Chip ρ) {e : Event} (h : e.ofDeck = false) :
    SameDeck c (c.record now e) := by
  obtain ⟨hcall, hpoll⟩ : e.call? = none ∧ Moment.deckPoll? ⟨now, e⟩ = none := by
    cases e with
    | note notice => cases notice <;> simp_all [Event.ofDeck, Event.call?, Moment.deckPoll?]
    | _ => simp_all [Event.ofDeck, Event.call?, Moment.deckPoll?]
  refine ⟨rfl, rfl, calls_record_of_none now c hcall, ?_⟩
  rw [deckPolls_record, hpoll]
  exact List.append_nil _

theorem sameDeck_playTone (now : Cycles) (c : Chip ρ) (hertz : Binary32) :
    SameDeck c (c.playTone now hertz) := by
  unfold Chip.playTone
  split
  · exact .refl c
  · split
    · exact sameDeck_record now c rfl
    · exact sameDeck_record now c rfl

theorem sameDeck_cassetteCarrier (c : Chip ρ) (level : Bool) :
    SameDeck c (c.cassetteCarrier level) := by
  unfold Chip.cassetteCarrier
  split
  · exact .refl c
  · exact ⟨rfl, rfl, rfl, rfl⟩

theorem sameDeck_peer (c : Chip ρ) (peer : Option ρ) : SameDeck c { c with peer } :=
  ⟨rfl, rfl, rfl, rfl⟩

theorem sameDeck_pollPeer [SerialPeer ρ] (now : Cycles) (c : Chip ρ) :
    SameDeck c (c.pollPeer now) := by
  unfold Chip.pollPeer
  split
  · exact .refl c
  · next peer _ =>
    dsimp only
    have hasked : ∀ peer answer, SameDeck c
        (({ c with peer := some peer } : Chip ρ).record now
          (.asked (Control.requestToSend c.control) answer)) :=
      fun peer answer => (sameDeck_peer c (some peer)).trans (sameDeck_record now _ rfl)
    cases (SerialPeer.offer peer (Control.requestToSend c.control)).1 with
    | none => exact hasked _ none
    | some b => exact (hasked _ (some b)).trans ⟨rfl, rfl, rfl, rfl⟩

theorem sameDeck_transmit [SerialPeer ρ] (now : Cycles) (c : Chip ρ) (b : UInt8) :
    SameDeck c (c.transmit now b) := by
  unfold Chip.transmit
  split
  · next peer _ _ => exact (sameDeck_peer c _).trans (sameDeck_record now _ rfl)
  · exact .refl c

/-! ### A turn of the deck -/

theorem sameDeck_take (now : Cycles) (c : Chip ρ) (s : Tape.Signal) :
    SameDeck (c.record now (.signal s)) (c.take now s) := by
  cases s with
  | byte b => exact ⟨rfl, rfl, rfl, rfl⟩
  | carrier level => exact sameDeck_cassetteCarrier _ level
  | tone hertz => exact sameDeck_playTone now _ hertz
  | note notice => exact .refl _

theorem take_spec (now : Cycles) (c : Chip ρ) (s : Tape.Signal) :
    (c.take now s).deck = c.deck ∧ (c.take now s).deckError = c.deckError ∧
      (c.take now s).calls = c.calls ++ [s].filter Tape.Signal.isCall := by
  have hsame := sameDeck_take now c s
  refine ⟨hsame.deck, hsame.deckError, ?_⟩
  rw [hsame.calls, calls_record]
  cases s <;> rfl

theorem foldl_take_spec (now : Cycles) (c : Chip ρ) (signals : List Tape.Signal) :
    (signals.foldl (Chip.take now) c).deck = c.deck ∧
      (signals.foldl (Chip.take now) c).deckError = c.deckError ∧
      (signals.foldl (Chip.take now) c).calls = c.calls ++ signals.filter Tape.Signal.isCall := by
  induction signals generalizing c with
  | nil => simp
  | cons s signals ih =>
    obtain ⟨hdeck, herror, hcalls⟩ := take_spec now c s
    obtain ⟨hdeck', herror', hcalls'⟩ := ih (c.take now s)
    refine ⟨hdeck'.trans hdeck, herror'.trans herror, ?_⟩
    rw [List.foldl_cons, hcalls', hcalls, List.append_assoc, ← List.filter_append]
    rfl

theorem calls_play (now : Cycles) (c : Chip ρ) (unit : Tape.Played Tape) :
    (c.play now unit).calls = c.calls ++ unit.beat.calls := by
  obtain ⟨-, -, hcalls⟩ := foldl_take_spec now c unit.signals
  unfold Chip.play
  dsimp only
  split
  · exact (calls_record_of_none now _ rfl).trans hcalls
  · exact (calls_record_of_none now _ rfl).trans hcalls

/-- A unit of work is one poll. -/
theorem deckPolls_play (now : Cycles) (c : Chip ρ) (unit : Tape.Played Tape) :
    (c.play now unit).deckPolls = c.deckPolls ++ [⟨now, unit.delay⟩] := by
  have hsignals (signals : List Tape.Signal) :
      (signals.foldl (Chip.take now) c).deckPolls = c.deckPolls := by
    induction signals generalizing c with
    | nil => rfl
    | cons s signals ih =>
      refine (ih (c.take now s)).trans ((sameDeck_take now c s).deckPolls.trans ?_)
      exact (deckPolls_record now c (.signal s)).trans (List.append_nil _)
  unfold Chip.play
  cases unit.delay with
  | ok delay =>
    refine (deckPolls_record now _ (.pause delay)).trans ?_
    exact congrArg (· ++ [⟨now, .ok delay⟩]) (hsignals unit.signals)
  | error e =>
    refine (deckPolls_record now _ (.note (.ejecting unit.tape.format e))).trans ?_
    exact congrArg (· ++ [⟨now, .error e⟩]) (hsignals unit.signals)

theorem deckPolls_foldl_play (now : Cycles) (c : Chip ρ) (units : List (Tape.Played Tape)) :
    (units.foldl (Chip.play now) c).deckPolls
      = c.deckPolls ++ units.map fun unit => ⟨now, unit.delay⟩ := by
  induction units generalizing c with
  | nil => exact (List.append_nil _).symm
  | cons unit units ih =>
    rw [List.foldl_cons, ih, deckPolls_play, List.append_assoc]
    rfl

theorem deck_play (now : Cycles) (c : Chip ρ) (unit : Tape.Played Tape) :
    (c.play now unit).deck = unit.next? := by
  unfold Chip.play Tape.Played.next?
  cases unit.delay <;> rfl

theorem deckError_play {now : Cycles} {c : Chip ρ} {unit : Tape.Played Tape} {delay : Cycles}
    (h : unit.delay = .ok delay) : (c.play now unit).deckError = c.deckError := by
  obtain ⟨-, herror, -⟩ := foldl_take_spec now c unit.signals
  unfold Chip.play
  rw [h]
  exact herror

theorem calls_foldl_play (now : Cycles) (c : Chip ρ) (units : List (Tape.Played Tape)) :
    (units.foldl (Chip.play now) c).calls = c.calls ++ Tape.callsOf units := by
  induction units generalizing c with
  | nil => exact (List.append_nil _).symm
  | cons unit units ih =>
    rw [List.foldl_cons, ih, calls_play, List.append_assoc]
    rfl

theorem deck_foldl_play (now : Cycles) (c : Chip ρ) (units : List (Tape.Played Tape))
    (h : units ≠ []) :
    (units.foldl (Chip.play now) c).deck = units.getLast?.bind Tape.Played.next? := by
  induction units generalizing c with
  | nil => exact absurd rfl h
  | cons unit units ih =>
    cases units with
    | nil => exact deck_play now c unit
    | cons next units =>
      rw [List.foldl_cons, ih (c.play now unit) (by simp), List.getLast?_cons_cons]

section

variable {c : Chip ρ} {tape : Tape}

/-- With the motor running, a turn of the deck plays a run of the tape in it. -/
theorem pollTape_of_running (now : Cycles) (hmotor : c.motorOn = true)
    (hdeck : c.deck = some tape) :
    (c.pollTape now).2 = (tape.run c.control).foldl (Chip.play now) c := by
  unfold Chip.pollTape
  rw [hmotor, hdeck]

theorem calls_pollTape (now : Cycles) (hmotor : c.motorOn = true) (hdeck : c.deck = some tape) :
    (c.pollTape now).2.calls = c.calls ++ Tape.callsOf (tape.run c.control) := by
  rw [pollTape_of_running now hmotor hdeck, calls_foldl_play]

/-- In a turn of the deck its tape is polled once for every unit of a run. -/
theorem deckPolls_pollTape (now : Cycles) (hmotor : c.motorOn = true)
    (hdeck : c.deck = some tape) :
    (c.pollTape now).2.deckPolls
      = c.deckPolls ++ (tape.run c.control).map fun unit => ⟨now, unit.delay⟩ := by
  rw [pollTape_of_running now hmotor hdeck, deckPolls_foldl_play]

theorem deck_pollTape (now : Cycles) (hmotor : c.motorOn = true) (hdeck : c.deck = some tape) :
    (c.pollTape now).2.deck = tape.afterRun c.control := by
  rw [pollTape_of_running now hmotor hdeck, deck_foldl_play now c _ (tape.run_ne_nil _)]
  rfl

/-- Otherwise it does nothing. -/
theorem pollTape_of_idle (now : Cycles) (h : c.motorOn = false ∨ c.deck = none) :
    c.pollTape now = (none, c) := by
  unfold Chip.pollTape
  rcases h with h | h
  · rw [h]
  · rw [h]
    split
    · next hnone => simp at hnone
    · rfl

theorem lost_foldl_run (now : Cycles) {control : UInt8} (h : c.deckError = none) :
    ((tape.run control).foldl (Chip.play now) c).Lost := by
  induction tape using Tape.run_induct control generalizing c with
  | last t hdelay =>
    change (c.play now (t.poll control)).Lost
    cases hd : (t.poll control).delay with
    | error e =>
      intro _
      rw [deck_play, Tape.Played.next?, hd]
      rfl
    | ok d =>
      intro herror
      exact absurd ((deckError_play hd).trans h) herror
  | more t hdelay ih =>
    rw [List.foldl_cons]
    exact ih ((deckError_play hdelay).trans h)

/-- After a run the deck has its tape, or the reason why it lost it. -/
theorem supplied_foldl_run (now : Cycles) {control : UInt8} (c : Chip ρ) :
    ((tape.run control).foldl (Chip.play now) c).Supplied := by
  induction tape using Tape.run_induct control generalizing c with
  | last t hdelay =>
    change (c.play now (t.poll control)).Supplied
    unfold Chip.play
    cases (t.poll control).delay with
    | error e => exact fun _ => Option.some_ne_none e
    | ok d => exact fun hnone => absurd hnone (Option.some_ne_none _)
  | more t hdelay ih => exact ih _

theorem supplied_pollTape (now : Cycles) (h : c.Supplied) : (c.pollTape now).2.Supplied := by
  unfold Chip.pollTape
  split
  · exact supplied_foldl_run now c
  · exact h

theorem lost_pollTape (now : Cycles) (h : c.Lost) : (c.pollTape now).2.Lost := by
  by_cases hmotor : c.motorOn = true
  · cases hdeck : c.deck with
    | none =>
      rw [pollTape_of_idle now (Or.inr hdeck)]
      exact h
    | some tape =>
      have herror : c.deckError = none := by
        by_cases herror : c.deckError = none
        · exact herror
        · exact absurd (h herror) (by rw [hdeck]; simp)
      rw [pollTape_of_running now hmotor hdeck]
      exact lost_foldl_run now herror
  · rw [pollTape_of_idle now (Or.inl (eq_false_of_ne_true hmotor))]
    exact h

end

end Cassette.Acia
