import Cassette.Proofs.Acia.Reel
import Cassette.Proofs.Board.Cadence
import Cassette.Proofs.Board.Rota
import Cassette.Proofs.Board.Transmission

/-!
# The ejection of a malformed tape

A tape may turn out to be malformed at any of its polls, in the midst of a stretch of time and after
other polls on the same cycle.  The stretch then comes to its end as it would have without a tape:
the failure is answered once, the tape has had no effect but what it played, the line and the
transmitter have had their turns, and the board is as good as one whose deck has been emptied.

## Main definitions

* `Board.Elapses` — what the passing of time comes to.
* `Board.Recovers` — what a board that has lost its tape can still do.

## Main results

* `elapses_poll` — the passing of time.
* `Course.deck_eq_none` — a deck stays empty until a tape goes into it.
* `Reachable.reports_failure` — **a malformed tape is reported once and leaves the board usable**.
-/

namespace Cassette

/-- The tape that plays in the deck, if there is one. -/
def Acia.reel? {ρ : Type} (a : Acia ρ) : Option Acia.Reel :=
  Acia.Reel.of? a.timers a.chip

namespace Board

open Acia (TapePoll Falls Reel Visit Reception Cadence)

variable {ρ : Type}

/-- Without a tape nothing plays. -/
theorem reel?_of_empty {a : Acia ρ} (hdeck : a.chip.deck = none) : a.reel? = none := by
  unfold Acia.reel? Reel.of?
  rw [hdeck]
  cases Acia.Timer.tape.due? a.timers <;> rfl

variable [Acia.SerialPeer ρ]

/-- What the passing of `cycles` on a board comes to, with the polls of the tape in it. -/
structure Elapses (b : Board ρ) (cycles : Cycles) (polls : List TapePoll) (reply : Reply)
    (b' : Board ρ) : Prop where
  /-- The polls are those that fall due, with the control register that is in force. -/
  falls : Falls b.acia.chip.control (b.acia.now + cycles) b.acia.reel? polls b'.acia.reel?
  /-- No others fall due. -/
  only : ∀ {polls' : List TapePoll} {last? : Option Reel},
    Falls b.acia.chip.control (b.acia.now + cycles) b.acia.reel? polls' last? → polls' = polls
  /-- An error is answered if one of them fails with it, and only then. -/
  failed : ∀ e, reply = .failed e ↔ ∃ p ∈ polls, p.Fails e
  /-- Otherwise there is nothing to answer. -/
  answered : reply = .none ∨ ∃ e, reply = .failed e
  /-- A tape that plays goes on playing unless it has failed. -/
  playsOn : b.acia.reel? ≠ none → (b'.acia.reel? = none ↔ ∃ e, reply = .failed e)
  /-- After a failure the deck is empty and its timer idle. -/
  emptied : ∀ e, reply = .failed e →
    b'.acia.chip.deck = none ∧ Acia.Timer.tape.due? b'.acia.timers = none
  /-- How the chip is set up stays as it was. -/
  control : b'.acia.chip.control = b.acia.chip.control
  motorOn : b'.acia.chip.motorOn = b.acia.chip.motorOn
  rs423Selected : b'.acia.chip.rs423Selected = b.acia.chip.rs423Selected
  receiveRate : b'.acia.chip.receiveRate = b.acia.chip.receiveRate
  sendHeld : b'.acia.chip.status.sendHeld = b.acia.chip.status.sendHeld
  /-- The tape has played what its polls have played and nothing else; and the receive registers
  have followed that and the line. -/
  heard : ∃ moments, b'.acia.chip.trace = b.acia.chip.trace ++ moments ∧
    moments.filter (·.event.ofDeck) = polls.flatMap TapePoll.moments ∧
    moments.filter (·.event.isOnLine) = (b.visits (.poll cycles)).filterMap Visit.moment? ∧
    b'.acia.chip.reception = (Acia.heard b.acia.chip.rs423Selected moments).foldl Reception.after
      b.acia.chip.reception
  /-- All the way the line has its visits and the transmitter its turns on the same cycles as
  without a tape, and with the same device. -/
  alone : ∀ {taken : Reply} {d : Board ρ}, b.perform .eject = .ok (taken, d) →
    ∀ {first : Cycles}, first.count ≤ cycles.count →
    ∃ reply₁ b₁ d₁, b.perform (.poll first) = .ok (reply₁, b₁) ∧
      d.perform (.poll first) = .ok (.none, d₁) ∧
      d.visits (.poll first) = b.visits (.poll first) ∧
      d₁.acia.contact = b₁.acia.contact ∧ d₁.acia.transmitter = b₁.acia.transmitter

/-- What a board can still do that has lost its tape, whatever happens to it meanwhile. -/
structure Recovers (b : Board ρ) : Prop where
  /-- Until a tape goes into the deck, time passes without a failure. -/
  passes : ∀ {b' : Board ρ}, Course (fun b op => b.Loads op = false) b b' →
    ∀ {cycles : Cycles}, b'.acia.now.count + cycles.count < Cycles.last.count →
    ∃ b'', b'.perform (.poll cycles) = .ok (.none, b'')
  /-- If the motor is on then, the tape that goes in is polled one cycle later for the first time,
  and keeps its cadence from there. -/
  plays : ∀ {b' b'' : Board ρ} {op : Operation ρ} {reply : Reply},
    Course (fun b op => b.Loads op = false) b b' → b'.acia.chip.motorOn = true →
    b'.Loads op = true → b'.perform op = .ok (reply, b'') →
    (∃ tape, b''.acia.reel? = some ⟨b'.acia.now + 1, tape⟩) ∧
    ∀ {c : Board ρ}, Course Continues b'' c → c.acia.now.count < Cycles.last.count →
      ∃ polls next?, c.acia.chip.deckPolls = b'.acia.chip.deckPolls ++ polls ∧
        Cadence (some (b'.acia.now.count + 1)) polls next? ∧
        ∀ cycle ∈ next?, c.acia.now.count < cycle

section

variable {b b' : Board ρ} {reply : Reply}

/-- The passing of time makes the polls that fall due, and answers if one of them fails. -/
theorem falls_poll (hb : b.Reachable) {cycles : Cycles}
    (h : b.perform (.poll cycles) = .ok (reply, b')) :
    ∃ polls, Falls b.acia.chip.control (b.acia.now + cycles) b.acia.reel? polls b'.acia.reel? ∧
      b'.acia.chip.deckMoments = b.acia.chip.deckMoments ++ polls.flatMap TapePoll.moments ∧
      (∀ e, reply = .failed e ↔ ∃ p ∈ polls, p.Fails e) ∧
      (reply = .none ∨ ∃ e, reply = .failed e) ∧
      ∀ e, reply = .failed e → b'.acia.chip.deck = none := by
  obtain ⟨⟨lost?, a⟩, hpoll, h⟩ := bind_ok h
  obtain ⟨rfl, rfl⟩ := Prod.mk.inj (Except.ok.inj h)
  obtain ⟨timers, chip, hadv, rfl, rfl⟩ := Acia.Sound.poll_ok hpoll
  obtain ⟨polls, hfalls, hmoments, herror⟩ := Acia.falls_advance hb.sound.timed hb.wired hadv
  have hanswer (e : Tape.Error) :
      chip.deckError.elim Reply.none Reply.failed = .failed e ↔ chip.deckError = some e := by
    cases chip.deckError <;> simp
  refine ⟨polls, hfalls, hmoments, fun e => ?_, ?_, fun e he => ?_⟩
  · -- nothing was left to report before
    rw [hanswer, herror, hb.sound.reported]
    simp
  · cases chip.deckError with
    | none => exact Or.inl rfl
    | some e => exact Or.inr ⟨e, rfl⟩
  · refine (hb.sound.timed.of_advance hadv).1.lost ?_
    rw [(hanswer e).mp he]
    simp

/-- A deck stays empty until a tape goes into it. -/
theorem Course.deck_eq_none (hb : b.Reachable) (hdeck : b.acia.chip.deck = none)
    (h : Course (fun b op => b.Loads op = false) b b') : b'.acia.chip.deck = none := by
  induction h with
  | refl => exact hdeck
  | @perform b₁ b₂ h op reply hloads hperform ih =>
    rcases perform_cases hperform with ⟨cycles, e, rfl, hpoll, -⟩ | hcycles
    · exact (Acia.playsOn_poll (h.reachable hb).sound hpoll).empty ih
    · rw [(perform_steps hperform hcycles).1.sameDeck.deck]
      by_cases heject : op = .eject
      · rw [heject]
        rfl
      · have hsame := isSome_handled hloads heject
        rw [ih] at hsame
        exact Option.isNone_iff_eq_none.mp (Option.isSome_eq_false_iff.mp hsame)
  | shelve _ _ ih => exact ih

/-- While the deck is empty, time passes without a failure. -/
theorem poll_of_empty (hb : b.Reachable) (hdeck : b.acia.chip.deck = none) {cycles : Cycles}
    (hend : b.acia.now.count + cycles.count < Cycles.last.count) :
    ∃ b', b.perform (.poll cycles) = .ok (.none, b') := by
  obtain ⟨reply, b', hperform⟩ := hb.exists_perform_poll hend
  obtain ⟨polls, hfalls, -, hfailed, hanswered, -⟩ := falls_poll hb hperform
  rw [reel?_of_empty hdeck] at hfalls
  obtain ⟨rfl, -⟩ := hfalls.of_none
  obtain rfl : reply = .none := hanswered.resolve_right fun ⟨e, he⟩ => by
    simpa using (hfailed e).mp he
  exact ⟨b', hperform⟩

/-- The line and the transmitter are as they are after the same time without a tape. -/
theorem alone_poll (hb : b.Reachable) {cycles : Cycles}
    (hend : b.acia.now.count + cycles.count < Cycles.last.count) {taken : Reply} {d : Board ρ}
    (heject : b.perform .eject = .ok (taken, d)) :
    ∃ reply b' d', b.perform (.poll cycles) = .ok (reply, b') ∧
      d.perform (.poll cycles) = .ok (.none, d') ∧
      d.visits (.poll cycles) = b.visits (.poll cycles) ∧
      d'.acia.contact = b'.acia.contact ∧ d'.acia.transmitter = b'.acia.transmitter := by
  obtain ⟨reply, b', h⟩ := hb.exists_perform_poll hend
  have hd := hb.perform heject
  have hacia : d.acia = b.acia.unloaded :=
    perform_outcome hb.sound hb.transmitDelay_ne_zero heject (by simp)
  have hnow : d.acia.now = b.acia.now := perform_now hb.sound heject
  have hdeck : d.acia.chip.deck = none := by
    rw [hacia]
    rfl
  have hcontact : d.acia.contact = b.acia.contact := by
    rw [hacia, Acia.contact_unloaded]
  have htransmitter : d.acia.transmitter = b.acia.transmitter := by
    rw [hacia, Acia.transmitter_unloaded]
  have hdelay : d.acia.transmitDelay = b.acia.transmitDelay := perform_transmitDelay heject
  have hend' : d.acia.now.count + cycles.count < Cycles.last.count := by
    rw [hnow]
    exact hend
  obtain ⟨d', hpoll⟩ := poll_of_empty hd hdeck hend'
  refine ⟨reply, b', d', h, hpoll, ?_, ?_, ?_⟩
  · simp only [visits]
    rw [hcontact, hnow]
  · rw [perform_contact hd hpoll (hd.now_poll_lt hpoll hend'),
      perform_contact hb h (hb.now_poll_lt h hend), hcontact, hnow]
  · rw [perform_transmitter hd hpoll, perform_transmitter hb h, htransmitter, hnow, hdelay]

/-- What the passing of time comes to. -/
theorem elapses_poll (hb : b.Reachable) {cycles : Cycles}
    (h : b.perform (.poll cycles) = .ok (reply, b'))
    (hend : b.acia.now.count + cycles.count < Cycles.last.count) :
    ∃ polls, Elapses b cycles polls reply b' := by
  obtain ⟨polls, hfalls, hdeck, hfailed, hanswered, hempty⟩ := falls_poll hb h
  obtain ⟨moments, htrace, hline, hreception⟩ := asked_poll hb h (hb.now_poll_lt h hend)
  have hstanding := perform_standing hb h
  refine ⟨polls, ?_⟩
  exact {
    falls := hfalls
    only := fun hfalls' => (hfalls.unique hfalls').1
    failed := hfailed
    answered := hanswered
    playsOn := fun hplays => by
      obtain ⟨r, hr⟩ := Option.ne_none_iff_exists'.mp hplays
      rw [hr] at hfalls
      rw [hfalls.stopped_iff]
      simp only [hfailed]
      exact ⟨fun ⟨p, hp, e, he⟩ => ⟨e, p, hp, he⟩, fun ⟨e, p, hp, he⟩ => ⟨p, hp, e, he⟩⟩
    emptied := fun e he => by
      have hnone := hempty e he
      have hwired := (hb.perform h).wired.tape
      rw [hnone, Option.isSome_none, Bool.and_false] at hwired
      exact ⟨hnone, Option.isNone_iff_eq_none.mp (Option.isSome_eq_false_iff.mp hwired)⟩
    control := congrArg (·.control) hstanding
    motorOn := congrArg (·.motorOn) hstanding
    rs423Selected := congrArg (·.rs423Selected) hstanding
    receiveRate := congrArg (·.receiveRate) hstanding
    sendHeld := congrArg (·.sendHeld) hstanding
    heard := by
      refine ⟨moments, htrace, ?_, hline, hreception⟩
      unfold Acia.Chip.deckMoments at hdeck
      rw [htrace, List.filter_append] at hdeck
      exact List.append_cancel_left hdeck
    alone := fun {_ _} heject {_} hle => alone_poll hb (by omega) heject }

/-- A board that has lost its tape is as good as one whose deck has been emptied. -/
theorem recovers_of_empty (hb : b.Reachable) (hdeck : b.acia.chip.deck = none) : b.Recovers where
  passes hcourse _ hend := poll_of_empty (hcourse.reachable hb) (hcourse.deck_eq_none hb hdeck) hend
  plays {b' b'' op reply} hcourse hmotor hloads hperform := by
    have hb' := hcourse.reachable hb
    have hstarts : b'.Starts op := Or.inr ⟨hmotor, hloads⟩
    refine ⟨?_, fun {c} hplays hlast => ?_⟩
    · have hdue : Acia.Timer.tape.due? b''.acia.timers = some (b'.acia.now + 1) := by
        rw [perform_outcome hb'.sound hb'.transmitDelay_ne_zero hperform (by
          rintro cycles rfl
          exact absurd hloads Bool.false_ne_true)]
        exact tapeDue_of_starts hb' hstarts
      -- the timer is pending, so there is a tape
      have hwired := (hb'.perform hperform).wired.tape
      rw [hdue] at hwired
      obtain ⟨-, hloaded⟩ := Bool.and_eq_true_iff.mp hwired.symm
      obtain ⟨tape, htape⟩ := Option.isSome_iff_exists.mp hloaded
      refine ⟨tape, ?_⟩
      unfold Acia.reel? Reel.of?
      rw [hdue, htape]
      rfl
    · obtain ⟨-, polls, next?, hpolls, hcadence, hdue⟩ :=
        hstarts.inTime hb' hperform hplays hlast
      refine ⟨polls, next?, hpolls, hcadence, ?_⟩
      rintro cycle rfl
      obtain ⟨e, he, hcycle⟩ := Acia.Timer.exists_entry hdue
      have hlater := (hplays.reachable (hb'.perform hperform)).later hlast e he
      rw [hcycle] at hlater
      exact Nat.lt_of_lt_of_le hlater (Nat.min_le_left ..)

end

/-- **A malformed tape is reported once and leaves the board usable.**

Below the end of time every poll makes the polls of the tape that fall due, and is answered with an
error exactly if one of these fails, and with that error.  Then the deck is empty, while the chip is
set up as before, has heard from the tape what its polls have played, and has had its line and its
transmitter as they are without a tape.  After that no poll fails until a tape goes into the deck,
and that one is polled like any other. -/
theorem Reachable.reports_failure {b : Board ρ} (hb : b.Reachable) {cycles : Cycles}
    (hend : b.acia.now.count + cycles.count < Cycles.last.count) :
    ∃ polls reply b', b.perform (.poll cycles) = .ok (reply, b') ∧
      Elapses b cycles polls reply b' ∧ ∀ e, reply = .failed e → b'.Recovers := by
  obtain ⟨reply, b', hperform⟩ := hb.exists_perform_poll hend
  obtain ⟨polls, helapses⟩ := elapses_poll hb hperform hend
  exact ⟨polls, reply, b', hperform, helapses, fun e he =>
    recovers_of_empty (hb.perform hperform) (helapses.emptied e he).1⟩

/-- A board that plays a tape with a byte that is followed by an escape without a meaning, while it
listens to RS423 and sends a byte. -/
def garbled : Board Caller :=
  ({ called with shelf := some (.tapefile (.ofImage [0x41, 0xFF, 0x07] .standard)) } :
    Board Caller).after [.reinsert, .ulaWrite 0xC0, .write 1 0x55]

/-- The error that is answered, if it is one. -/
def Reply.error? : Reply → Option Tape.Error
  | .failed e => some e
  | _ => Option.none

theorem error?_of_perform {b b' : Board ρ} {op : Operation ρ} {reply : Reply}
    (h : b.perform op = .ok (reply, b')) :
    (b.run [op]).toOption.map (·.1.map Reply.error?) = some [reply.error?] := by
  rw [run, h]
  rfl

/-- The tape fails on its second poll, and the transmission ends and the device is asked again
after that. -/
theorem reports_failure_garbled :
    ∃ (polls : List TapePoll) (b' : Board Caller), garbled.Reachable ∧
      garbled.acia.now.count + (2500 : Cycles).count < Cycles.last.count ∧
      garbled.perform (.poll 2500) = .ok (.failed (.unexpectedEscape 0x07), b') ∧
      Elapses garbled 2500 polls (.failed (.unexpectedEscape 0x07)) b' ∧ b'.Recovers ∧
      b'.acia.chip.deckPolls.map (·.cycle.count) = [1, 1042] ∧
      b'.acia.chip.asks.map (·.cycle.count) = [1041, 2082] ∧
      garbled.acia.chip.status.transmitEmpty = false ∧
      b'.acia.chip.status.transmitEmpty = true := by
  have hgarbled : garbled.Reachable := (reachable_called.shelve _).after _
  have hend : garbled.acia.now.count + (2500 : Cycles).count < Cycles.last.count := by
    decide +kernel
  obtain ⟨polls, reply, b', hperform, helapses, hrecovers⟩ := hgarbled.reports_failure hend
  obtain ⟨reply', hafter⟩ := perform_after garbled (.poll 2500) (by decide +kernel)
  obtain ⟨-, hb'⟩ := Prod.mk.inj (Except.ok.inj (hperform.symm.trans hafter))
  have herror : (garbled.run [.poll 2500]).toOption.map (·.1.map Reply.error?)
      = some [some (.unexpectedEscape 0x07)] := by
    decide +kernel
  rw [error?_of_perform hperform] at herror
  have hreply : reply = .failed (.unexpectedEscape 0x07) := by
    cases reply <;> simp_all [Reply.error?]
  rw [hreply] at hperform helapses
  refine ⟨polls, b', hgarbled, hend, hperform, helapses, hrecovers _ hreply, ?_⟩
  rw [hb']
  exact ⟨by decide +kernel, by decide +kernel, by decide +kernel, by decide +kernel⟩

end Board

end Cassette
