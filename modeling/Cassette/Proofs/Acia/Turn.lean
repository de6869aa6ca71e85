import Cassette.Proofs.Acia.Deck
import Cassette.Proofs.Tape.Progress

/-!
# A turn of the deck

In one turn the tape in the deck is polled until a unit of work takes time or fails.  Any number of
units may take none, on any clock and over any base tone, but not more than the bytes that are left
on the tape allow.

## Main results

* `turn_ends` — **a turn of the deck comes to its end.**
-/

namespace Cassette.Acia

variable {ρ : Type}

/-- **A turn of the deck comes to its end.**  With any tape that an image has been played to, in the
middle of a chunk or between two, and whatever the control register: the turn is `n` polls without a
delay and one more, which has a positive delay, or fails.  The bytes that are left of the image and
of the chunk in hand bound `n`. -/
theorem turn_ends {tape : Tape} (htape : tape.Reachable) {c : Chip ρ} (hmotor : c.motorOn = true)
    (hdeck : c.deck = some tape) (now : Cycles) :
    ∃ n < 300 * (tape.imageLeft + tape.chunkLeft + 1),
      (∀ k < n, ((tape.afterPolls c.control k).poll c.control).delay = .ok 0) ∧
      ((∃ d, d ≠ 0 ∧ ((tape.afterPolls c.control n).poll c.control).delay = .ok d ∧
          (c.pollTape now).1 = some d) ∨
        ∃ e, ((tape.afterPolls c.control n).poll c.control).delay = .error e ∧
          (c.pollTape now).1 = none) ∧
      (c.pollTape now).2
        = ((List.range (n + 1)).map fun k => (tape.afterPolls c.control k).poll c.control).foldl
            (Chip.play now) c := by
  obtain ⟨n, hrun, hearlier, hlast⟩ := tape.exists_run c.control
  have hturn : (c.pollTape now).1
      = ((tape.afterPolls c.control n).poll c.control).delay.toOption := by
    unfold Chip.pollTape
    rw [hmotor, hdeck]
    simp only [hrun, List.range_succ, List.map_append, List.map_cons, List.map_nil,
      List.getLast?_append, List.getLast?_singleton, Option.some_or, Option.bind_some]
  refine ⟨n, ?_, hearlier, ?_, ?_⟩
  · have hlength := tape.length_run_le c.control
    rw [hrun, List.length_map, List.length_range] at hlength
    have hwork := htape.work_lt
    omega
  · rw [hturn]
    cases hdelay : ((tape.afterPolls c.control n).poll c.control).delay with
    | ok d => exact Or.inl ⟨d, fun hd => hlast (by rw [hdelay, hd]), rfl, rfl⟩
    | error e => exact Or.inr ⟨e, rfl, rfl⟩
  · rw [pollTape_of_running now hmotor hdeck, hrun]

/-- Two bytes of data in frames of a start cell alone. -/
def bareImage : List UInt8 := Tape.Uef.encode 10 [⟨0x0104, [0, 0x4E, 0, 0x41, 0x42]⟩]

/-- A clock that stands still, and the start cell of the first byte played. -/
def bareTape : Tape := ((Tape.uef (.ofImage bareImage ⟨0⟩)).poll 0x15).tape

/-- The first byte is still to arrive, which takes no time, and a byte is left of the chunk. -/
theorem turn_ends_bare :
    let c : Chip Unit :=
      { clock := ⟨0⟩, receiveRate := 19200, control := 0x15, motorOn := true,
        deck := some bareTape }
    bareTape.Reachable ∧ c.motorOn = true ∧ c.deck = some bareTape ∧
      (bareTape.poll 0x15).delay = .ok 0 ∧ bareTape.imageLeft = 0 ∧ bareTape.chunkLeft = 1 ∧
      ∃ n < 300 * (bareTape.imageLeft + bareTape.chunkLeft + 1),
        (∀ k < n, ((bareTape.afterPolls 0x15 k).poll 0x15).delay = .ok 0) ∧
        ((∃ d, d ≠ 0 ∧ ((bareTape.afterPolls 0x15 n).poll 0x15).delay = .ok d ∧
            (c.pollTape 7).1 = some d) ∨
          ∃ e, ((bareTape.afterPolls 0x15 n).poll 0x15).delay = .error e ∧
            (c.pollTape 7).1 = none) ∧
        (c.pollTape 7).2
          = ((List.range (n + 1)).map fun k => (bareTape.afterPolls 0x15 k).poll 0x15).foldl
              (Chip.play 7) c := by
  intro c
  have hopened : Tape.ofImage .uef bareImage ⟨0⟩
      = ([.version 0 10], .ok (.uef (.ofImage bareImage ⟨0⟩))) := rfl
  have htape : bareTape.Reachable := .poll 0x15 (.opened hopened)
  exact ⟨htape, rfl, rfl, rfl, rfl, rfl, turn_ends htape (c := c) rfl rfl 7⟩

end Cassette.Acia
