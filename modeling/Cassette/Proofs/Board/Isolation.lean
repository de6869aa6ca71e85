import Cassette.Proofs.Acia.Line
import Cassette.Proofs.Board.Delivery
import Cassette.Proofs.Board.Regular

/-!
# How far the cassette reaches

Two boards that differ in their tapes alone, and on which the same happens while RS423 is
selected, show a program the same registers and interrupts, whatever the tapes are, how far they
have been played and whether they can be played at all: neither carrier nor tone nor the loss of
a tape gets through.  The one thing that does is a byte, which arrives although RS423 is selected.

## Main definitions

* `Acia.Alike` — two chips that differ in the cassette alone.
* `Board.KeepsRs423` — an operation that leaves RS423 selected.

## Main results

* `alike_perform`, `alike_run` — while no tape plays a byte, boards that are alike stay alike.
* `Reachable.exists_alike` — every board is like one without a tape.
* `bytes_run` — a tape without a byte left, or an empty deck, plays none.
* `Reachable.isolated` — **while RS423 is selected only the bytes of a tape get through**.
-/

namespace Cassette

namespace Acia

variable {ρ : Type}

/-- The chips differ in the cassette alone. -/
structure Alike (a d : Acia ρ) : Prop where
  line : a.line = d.line
  transmitter : a.transmitter = d.transmitter
  now : a.now = d.now
  transmitDelay : a.transmitDelay = d.transmitDelay

namespace Alike

variable {a d : Acia ρ} (h : Alike a d)

include h

theorem control : a.chip.control = d.chip.control := congrArg (·.chip.control) h.line

theorem rs423Selected : a.chip.rs423Selected = d.chip.rs423Selected :=
  congrArg (·.chip.rs423Selected) h.line

theorem data : a.chip.data = d.chip.data := congrArg (·.chip.data) h.line

theorem status : a.chip.status = d.chip.status := by
  have hline : { a.chip.status with transmitEmpty := false }
      = { d.chip.status with transmitEmpty := false } := congrArg (·.chip.status) h.line
  have hempty : a.chip.status.transmitEmpty = d.chip.status.transmitEmpty :=
    congrArg Transmitter.empty h.transmitter
  calc a.chip.status
      = { { a.chip.status with transmitEmpty := false } with
          transmitEmpty := a.chip.status.transmitEmpty } := rfl
    _ = d.chip.status := by rw [hline, hempty]

theorem interruptActive : a.chip.interruptActive = d.chip.interruptActive := by
  unfold Chip.interruptActive
  rw [h.status, h.control]

/-- A program reads the same in both. -/
theorem read (address : UInt16) : (a.read address).1 = (d.read address).1 := by
  have hshown : a.chip.shownStatus = d.chip.shownStatus := by
    unfold Chip.shownStatus
    rw [h.status, h.interruptActive]
  unfold Acia.read
  split
  · exact h.data
  · exact congrArg Status.byte hshown

end Alike

end Acia

namespace Board

open Acia (Alike Line)

variable {ρ : Type}

/-- The bytes that the tapes in the deck have played. -/
def bytes (b : Board ρ) : List UInt8 := b.acia.chip.bytes

/-- RS423 is selected. -/
def OnRs423 (b : Board ρ) : Prop := b.acia.chip.rs423Selected = true

instance (b : Board ρ) : Decidable b.OnRs423 :=
  inferInstanceAs (Decidable (b.acia.chip.rs423Selected = true))

/-- The operation leaves RS423 selected. -/
def KeepsRs423 : Operation ρ → Prop
  | .selectRs423 selected => selected = true
  | .ulaWrite value => (SerialUla.mk value).selectsRs423 = true
  | _ => True

/-- The byte that a reply gives to the program. -/
def Reply.byte? : Reply → Option UInt8
  | .byte b => some b
  | _ => Option.none

/-- The byte that an operation gives to the program. -/
def given (b : Board ρ) : Operation ρ → Option UInt8
  | .read address => some (b.acia.read address).1
  | .ulaRead => some 0
  | _ => none

/-! ### One operation -/

theorem given_alike {b d : Board ρ} (h : Alike b.acia d.acia) (op : Operation ρ) :
    b.given op = d.given op := by
  cases op with
  | read address => exact congrArg some (h.read address)
  | _ => rfl

theorem line_routed {a d : Acia ρ} (h : Alike a d) (ha : a.chip.rs423Selected = true)
    (hd : d.chip.rs423Selected = true) (u : SerialUla) : (a.routed u).line = (d.routed u).line := by
  have hrated (a : Acia ρ) (ha : a.chip.rs423Selected = true) :
      (a.rated u.receiveRate).chip.standing.rs423Selected = true := by
    rw [Acia.standing_rated]
    exact ha
  have hswitched : ((a.rated u.receiveRate).switched u.motorOn).line
      = ((d.rated u.receiveRate).switched u.motorOn).line := by
    rw [Acia.line_switched (hrated a ha), Acia.line_switched (hrated d hd)]
    exact Acia.line_rated h.line u.receiveRate
  refine Acia.line_selected hswitched ?_ u.selectsRs423
  rw [Acia.now_switched, Acia.now_switched, Acia.now_rated, Acia.now_rated, h.now]

variable [Acia.SerialPeer ρ]

/-- RS423 stays selected. -/
theorem onRs423_perform {b b' : Board ρ} (hb : b.Reachable) (h : b.OnRs423) {op : Operation ρ}
    (hop : KeepsRs423 op) {reply : Reply} (hperform : b.perform op = .ok (reply, b')) :
    b'.OnRs423 := by
  unfold OnRs423
  rw [perform_selection hb hperform, show b.acia.chip.rs423Selected = true from h]
  cases op with
  | selectRs423 selected => exact hop
  | ulaWrite value => exact hop
  | _ => rfl

/-- An operation other than the passing of time is the same to the lines of boards that are
alike. -/
theorem line_outcome {b d : Board ρ} (h : Alike b.acia d.acia) (hb : b.OnRs423) (hd : d.OnRs423)
    (op : Operation ρ) : (b.outcome op).line = (d.outcome op).line := by
  have hline := h.line
  cases op with
  | read address => exact Acia.line_read hline address
  | write address value => exact Acia.line_written hline h.now address value
  | reset =>
    exact Acia.line_local hline (f := fun c => { c with status := c.status.reset }) fun _ => rfl
  | selectRs423 selected => exact Acia.line_selected hline h.now selected
  | setCarrier level => exact Acia.line_local hline (Acia.lineLocal_setCarrier level)
  | receive byte => exact Acia.line_local hline (f := (·.receive byte)) fun _ => rfl
  | switchMotor on =>
    exact ((Acia.line_switched hb on).trans hline).trans (Acia.line_switched hd on).symm
  | setReceiveRate rate => exact Acia.line_rated hline rate
  | insert data clock =>
    exact ((Acia.line_opened _ _).trans hline).trans (Acia.line_opened _ _).symm
  | eject => exact ((Acia.line_unloaded _).trans hline).trans (Acia.line_unloaded _).symm
  | reinsert =>
    have hinserted (b : Board ρ) : (b.outcome .reinsert).line = b.acia.line :=
      outcome_reinsert (P := (·.line = b.acia.line)) rfl (Acia.line_loaded _)
    exact ((hinserted b).trans hline).trans (hinserted d).symm
  | rewind => exact ((Acia.line_rewind _).trans hline).trans (Acia.line_rewind _).symm
  | ulaWrite value => exact line_routed h hb hd _
  | ulaRead => exact line_routed h hb hd _
  | attachPeer peer => exact Acia.line_local hline (f := ({ · with peer })) fun _ => rfl
  | poll | ulaReset | attachTone | attachNoise => exact hline

/-- What has been played is added to, and RS423 stays selected. -/
theorem perform_onRs423 {b b' : Board ρ} (hb : b.Reachable) (h : b.OnRs423) {op : Operation ρ}
    (hop : KeepsRs423 op) {reply : Reply} (hperform : b.perform op = .ok (reply, b')) :
    b.bytes <+: b'.bytes ∧ b'.OnRs423 := by
  refine ⟨?_, onRs423_perform hb h hop hperform⟩
  rcases perform_cases hperform with ⟨cycles, e, rfl, hpoll, -⟩ | hcycles
  · obtain ⟨timers, chip, hadv, -, ha⟩ := Acia.Sound.poll_ok hpoll
    obtain ⟨-, hgrows, -⟩ := Acia.line_advance h hb.sound.timed hadv
    unfold bytes
    rw [ha]
    exact hgrows
  · have hbytes : b'.bytes = b.bytes := (perform_steps hperform hcycles).1.sameDeck.bytes
    exact hbytes ▸ List.prefix_refl _

/-- When no byte is played, the passing of time is to the line its own turns. -/
theorem line_poll {b b' : Board ρ} (hb : b.Reachable) (h : b.OnRs423) {cycles : Cycles}
    {reply : Reply} (hperform : b.perform (.poll cycles) = .ok (reply, b'))
    (hbytes : b'.bytes = b.bytes) :
    Line.Until (b.acia.now + cycles) b.acia.line b'.acia.line := by
  obtain ⟨⟨e, a⟩, hpoll, hperform⟩ := bind_ok hperform
  obtain ⟨-, rfl⟩ := Prod.mk.inj (Except.ok.inj hperform)
  obtain ⟨timers, chip, hadv, -, ha⟩ := Acia.Sound.poll_ok hpoll
  obtain ⟨-, -, hline⟩ := Acia.line_advance h hb.sound.timed hadv
  change a.chip.bytes = b.acia.chip.bytes at hbytes
  change Line.Until _ b.acia.line a.line
  rw [ha] at hbytes ⊢
  exact hline hbytes

/-- Boards that are alike stay alike, unless a tape plays a byte. -/
theorem alike_perform {b d b' d' : Board ρ} (hb : b.Reachable) (hd : d.Reachable)
    (hselected : b.OnRs423) (hselected' : d.OnRs423) (h : Alike b.acia d.acia) {op : Operation ρ}
    {reply reply' : Reply} (hperform : b.perform op = .ok (reply, b'))
    (hperform' : d.perform op = .ok (reply', d')) (hbytes : b'.bytes = b.bytes)
    (hbytes' : d'.bytes = d.bytes) : Alike b'.acia d'.acia := by
  have htransmitter : b'.acia.transmitter = d'.acia.transmitter := by
    rw [perform_transmitter hb hperform, perform_transmitter hd hperform', h.transmitter, h.now,
      h.transmitDelay]
  have hdelay : b'.acia.transmitDelay = d'.acia.transmitDelay := by
    rw [perform_transmitDelay hperform, perform_transmitDelay hperform', h.transmitDelay]
  rcases perform_cases hperform with ⟨cycles, e, rfl, hpoll, -⟩ | hcycles
  · refine ⟨?_, htransmitter, ?_, hdelay⟩
    · have hline := line_poll hb hselected hperform hbytes
      have hline' := line_poll hd hselected' hperform' hbytes'
      -- the turns of the line up to the same cycle lead from one line to one line
      rw [h.line, h.now] at hline
      exact hline.unique hline'
    · rw [perform_now hb.sound hperform, perform_now hd.sound hperform', h.now]
  · refine ⟨?_, htransmitter, ?_, hdelay⟩
    · rw [perform_outcome hb.sound hb.transmitDelay_ne_zero hperform hcycles,
        perform_outcome hd.sound hd.transmitDelay_ne_zero hperform' hcycles]
      exact line_outcome h hselected hselected' op
    · exact ((perform_steps hperform hcycles).1.now.trans h.now).trans
        (perform_steps hperform' hcycles).1.now.symm

theorem byte?_perform {b b' : Board ρ} {op : Operation ρ} {reply : Reply}
    (h : b.perform op = .ok (reply, b')) : reply.byte? = b.given op := by
  by_cases hop : ∃ cycles, op = .poll cycles
  · obtain ⟨cycles, rfl⟩ := hop
    obtain ⟨⟨e, a⟩, -, h⟩ := bind_ok h
    obtain ⟨rfl, -⟩ := Prod.mk.inj (Except.ok.inj h)
    cases e <;> rfl
  · rw [(perform_answer h fun cycles heq => hop ⟨cycles, heq⟩).1]
    cases op with
    | insert data clock =>
      simp only [answer]
      split <;> rfl
    | _ => rfl

/-! ### Histories -/

theorem run_onRs423 {b b' : Board ρ} (hb : b.Reachable) (h : b.OnRs423) {ops : List (Operation ρ)}
    (hops : ∀ op ∈ ops, KeepsRs423 op) {replies : List Reply}
    (hrun : b.run ops = .ok (replies, b')) : b.bytes <+: b'.bytes := by
  induction ops generalizing b replies with
  | nil =>
    obtain ⟨-, rfl⟩ := Prod.mk.inj (Except.ok.inj hrun)
    exact List.prefix_refl _
  | cons op ops ih =>
    obtain ⟨reply, rest, b₁, hperform, hrest, -⟩ := run_cons_iff.mp hrun
    obtain ⟨hgrows, h₁⟩ := perform_onRs423 hb h (hops op List.mem_cons_self) hperform
    exact hgrows.trans (ih (hb.perform hperform) h₁
      (fun op hop => hops op (List.mem_cons_of_mem _ hop)) hrest)

/-- Along a history boards that are alike stay alike, and give the same bytes to the program,
unless a tape plays one. -/
theorem alike_run {b d b' d' : Board ρ} (hb : b.Reachable) (hd : d.Reachable)
    (hselected : b.OnRs423) (h : Alike b.acia d.acia) {ops : List (Operation ρ)}
    (hops : ∀ op ∈ ops, KeepsRs423 op) {replies replies' : List Reply}
    (hrun : b.run ops = .ok (replies, b')) (hrun' : d.run ops = .ok (replies', d'))
    (hbytes : b'.bytes = b.bytes) (hbytes' : d'.bytes = d.bytes) :
    Alike b'.acia d'.acia ∧
      replies.filterMap Reply.byte? = replies'.filterMap Reply.byte? := by
  induction ops generalizing b d replies replies' with
  | nil =>
    obtain ⟨rfl, rfl⟩ := Prod.mk.inj (Except.ok.inj hrun)
    obtain ⟨rfl, rfl⟩ := Prod.mk.inj (Except.ok.inj hrun')
    exact ⟨h, rfl⟩
  | cons op ops ih =>
    have hselected' : d.OnRs423 := h.rs423Selected.symm.trans hselected
    have hop := hops op List.mem_cons_self
    have hops' := fun op hop => hops op (List.mem_cons_of_mem _ hop)
    obtain ⟨reply, rest, b₁, hperform, hrest, rfl⟩ := run_cons_iff.mp hrun
    obtain ⟨reply', rest', d₁, hperform', hrest', rfl⟩ := run_cons_iff.mp hrun'
    -- nothing is played by the first operation, since nothing is by all of them
    obtain ⟨hgrows, hselected₁⟩ := perform_onRs423 hb hselected hop hperform
    obtain ⟨hgrows', hselected₁'⟩ := perform_onRs423 hd hselected' hop hperform'
    have hrests := run_onRs423 (hb.perform hperform) hselected₁ hops' hrest
    have hrests' := run_onRs423 (hd.perform hperform') hselected₁' hops' hrest'
    have hfirst := Acia.bytes_eq_of_le hgrows hrests hbytes
    have hfirst' := Acia.bytes_eq_of_le hgrows' hrests' hbytes'
    have halike := alike_perform hb hd hselected hselected' h hperform hperform' hfirst hfirst'
    obtain ⟨hlast, hreplies⟩ := ih (hb.perform hperform) (hd.perform hperform') hselected₁ halike
      hops' hrest hrest' (hbytes.trans hfirst.symm) (hbytes'.trans hfirst'.symm)
    refine ⟨hlast, ?_⟩
    have hreply : reply.byte? = reply'.byte? := by
      rw [byte?_perform hperform, byte?_perform hperform', given_alike h]
    rw [List.filterMap_cons, List.filterMap_cons, hreply, hreplies]

/-- While RS423 is selected, time does not come to its end: there the line would have its turns
for ever. -/
theorem Reachable.count_lt_last {b b' : Board ρ} (hb : b.Reachable) (h : b'.OnRs423)
    {cycles : Cycles} {reply : Reply} (hperform : b.perform (.poll cycles) = .ok (reply, b')) :
    b.acia.now.count + cycles.count < Cycles.last.count := by
  have hpending := (hb.perform hperform).wired.rs423
  obtain ⟨⟨e, a⟩, hpoll, hperform⟩ := bind_ok hperform
  obtain ⟨-, rfl⟩ := Prod.mk.inj (Except.ok.inj hperform)
  obtain ⟨timers, chip, hadv, -, ha⟩ := Acia.Sound.poll_ok hpoll
  obtain ⟨-, -, hlater⟩ := hb.sound.timed.of_advance hadv
  -- the turn that the line has next is still to come
  obtain ⟨due, hdue⟩ := Option.isSome_iff_exists.mp (hpending.trans h)
  obtain ⟨entry, hentry, -⟩ := Acia.Timer.exists_entry hdue
  change entry ∈ a.timers.agenda at hentry
  rw [ha] at hentry
  have hcount : (b.acia.now + cycles).count < entry.due.count := hlater entry hentry
  have hlast := entry.due.lt_size
  rw [Cycles.count_add] at hcount
  rw [Cycles.count_last]
  omega

/-- A history with RS423 selected that keeps the contract on one board keeps it on every other
board that is as far in time. -/
theorem exists_run {b d b' : Board ρ} (hb : b.Reachable) (hd : d.Reachable) (h : b.OnRs423)
    (hnow : b.acia.now = d.acia.now) {ops : List (Operation ρ)} (hops : ∀ op ∈ ops, KeepsRs423 op)
    {replies : List Reply} (hrun : b.run ops = .ok (replies, b')) :
    ∃ replies' d', d.run ops = .ok (replies', d') := by
  induction ops generalizing b d replies with
  | nil => exact ⟨_, _, rfl⟩
  | cons op ops ih =>
    obtain ⟨reply, rest, b₁, hperform, hrest, -⟩ := run_cons_iff.mp hrun
    obtain ⟨-, h₁⟩ := perform_onRs423 hb h (hops op List.mem_cons_self) hperform
    obtain ⟨reply', d₁, hperform'⟩ : ∃ reply' d₁, d.perform op = .ok (reply', d₁) := by
      refine hd.exists_perform op ?_ ?_
      · rintro rfl
        obtain ⟨a, ha, -⟩ := bind_ok hperform
        simp [Acia.setReceiveRate] at ha
      · rintro cycles rfl
        rw [← hnow]
        exact hb.count_lt_last h₁ hperform
    have hnow₁ : b₁.acia.now = d₁.acia.now := by
      rw [perform_now hb.sound hperform, perform_now hd.sound hperform', hnow]
    obtain ⟨rest', d', hrest'⟩ := ih (hb.perform hperform) (hd.perform hperform') h₁ hnow₁
      (fun op hop => hops op (List.mem_cons_of_mem _ hop)) hrest
    exact ⟨_, d', run_cons_iff.mpr ⟨reply', rest', d₁, hperform', hrest', rfl⟩⟩

/-- Every board is like one without a tape. -/
theorem Reachable.exists_alike {b : Board ρ} (hb : b.Reachable) :
    ∃ d : Board ρ, d.Reachable ∧ d.acia.chip.deck = none ∧ d.shelf = none ∧
      Alike b.acia d.acia := by
  obtain ⟨reply, d, hperform⟩ := hb.exists_perform .eject (by simp) (by simp)
  have hsteps := (perform_steps hperform (by simp)).1
  have hacia := perform_outcome hb.sound hb.transmitDelay_ne_zero hperform (by simp)
  refine ⟨{ d with shelf := none }, (hb.perform hperform).shelve none, hsteps.sameDeck.deck, rfl,
    ?_, ?_, hsteps.now.symm, (perform_transmitDelay hperform).symm⟩
  · rw [hacia]
    exact (Acia.line_unloaded _).symm
  · rw [hacia]
    exact (Acia.transmitter_unloaded _).symm

/-- A tape with no byte left to play plays none, and nor does an empty deck. -/
theorem bytes_run {b b' : Board ρ} (hb : b.Reachable) (h : b.OneTape) {ops : List (Operation ρ)}
    (hops : ∀ op ∈ ops, KeepsTape op) {replies : List Reply}
    (hrun : b.run ops = .ok (replies, b')) (hleft : b.left.filterMap Tape.Signal.byte? = []) :
    b'.bytes = b.bytes := by
  obtain ⟨⟨more, hcalls, hmore⟩, -⟩ := playsOn_run hb h hops hrun
  rw [hmore, List.filterMap_append] at hleft
  obtain ⟨hplayed, -⟩ := List.append_eq_nil_iff.mp hleft
  change b'.calls.filterMap Tape.Signal.byte? = b.calls.filterMap Tape.Signal.byte?
  rw [hcalls, List.filterMap_append, hplayed, List.append_nil]

/-- **While RS423 is selected only the bytes of a tape get through.**  Of two boards that differ in
the cassette alone, let one have a history that leaves RS423 selected and in which its tapes play
no byte.  Then the other, its deck empty or not, can have that history too, and if its tapes play no
byte either, the program finds the same in the registers of both, reads the same on the way and
is interrupted alike. -/
theorem Reachable.isolated {b d b' : Board ρ} (hb : b.Reachable) (hd : d.Reachable)
    (hselected : b.OnRs423) (h : Alike b.acia d.acia) {ops : List (Operation ρ)}
    (hops : ∀ op ∈ ops, KeepsRs423 op) {replies : List Reply}
    (hrun : b.run ops = .ok (replies, b')) (hbytes : b'.bytes = b.bytes) :
    ∃ replies' d', d.run ops = .ok (replies', d') ∧
      (d'.bytes = d.bytes →
        b'.acia.chip.status = d'.acia.chip.status ∧ b'.acia.chip.data = d'.acia.chip.data ∧
        b'.acia.chip.interruptActive = d'.acia.chip.interruptActive ∧
        (∀ address, (b'.acia.read address).1 = (d'.acia.read address).1) ∧
        replies.filterMap Reply.byte? = replies'.filterMap Reply.byte?) := by
  obtain ⟨replies', d', hrun'⟩ := exists_run hb hd hselected h.now hops hrun
  refine ⟨replies', d', hrun', fun hbytes' => ?_⟩
  obtain ⟨halike, hreplies⟩ := alike_run hb hd hselected h hops hrun hrun' hbytes hbytes'
  exact ⟨halike.status, halike.data, halike.interruptActive, halike.read, hreplies⟩

/-- A board that listens to RS423 with a tape in the deck. -/
def listener (tape : Tape) : Board Unit :=
  ({ plain with shelf := some tape } : Board Unit).after [.reinsert, .selectRs423 true]

theorem reachable_listener (tape : Tape) : (listener tape).Reachable :=
  (reachable_plain.shelve _).after _

/-- A tape that ends within a chunk, after a carrier tone. -/
def torn : Tape :=
  .uef (.ofImage (Tape.Uef.encode 10 [⟨0x0110, [4, 0]⟩] ++ [0]) .standard)

/-- A program that starts the motor, sends a byte and reads the registers. -/
def listening : List (Operation Unit) :=
  [.ulaWrite 0xD0, .write 1 0x41, .poll 3000, .read 0, .poll 7000, .read 0, .read 1]

/-- It does not find out about the tape, neither while the carrier plays nor when the tape has been
thrown out. -/
theorem isolated_torn :
    ∃ (d b' d' : Board Unit) (replies replies' : List Reply),
      (listener torn).Reachable ∧ d.Reachable ∧ d.acia.chip.deck = none ∧
      (listener torn).OnRs423 ∧ Alike (listener torn).acia d.acia ∧
      (listener torn).acia.chip.deck.isSome = true ∧ (∀ op ∈ listening, KeepsRs423 op) ∧
      (listener torn).run listening = .ok (replies, b') ∧ b'.bytes = (listener torn).bytes ∧
      b'.acia.chip.deck.isSome = false ∧ d.run listening = .ok (replies', d') ∧
      d'.bytes = d.bytes ∧
      b'.acia.chip.status = d'.acia.chip.status ∧ b'.acia.chip.data = d'.acia.chip.data ∧
      b'.acia.chip.interruptActive = d'.acia.chip.interruptActive ∧
      (∀ address, (b'.acia.read address).1 = (d'.acia.read address).1) ∧
      replies.filterMap Reply.byte? = replies'.filterMap Reply.byte? := by
  have htorn := reachable_listener torn
  obtain ⟨d, hd, hdeck, hshelf, halike⟩ := htorn.exists_alike
  have hselected : (listener torn).OnRs423 := by decide +kernel
  have hops : ∀ op ∈ listening, KeepsRs423 op ∧ KeepsTape op := by
    intro op hop
    simp only [listening, List.mem_cons, List.not_mem_nil, or_false] at hop
    rcases hop with rfl | rfl | rfl | rfl | rfl | rfl | rfl <;> exact ⟨by trivial, trivial⟩
  have hkeeps := fun op hop => (hops op hop).1
  obtain ⟨replies, hrun⟩ := run_after (listener torn) listening (by decide +kernel)
  have hbytes : ((listener torn).after listening).bytes = (listener torn).bytes := by
    decide +kernel
  obtain ⟨replies', d', hrun', hsame⟩ := htorn.isolated hd hselected halike hkeeps hrun hbytes
  -- there is no tape that could play a byte
  have hleft : d.left.filterMap Tape.Signal.byte? = [] := by
    unfold left
    rw [hdeck, hshelf]
    rfl
  have hbytes' := bytes_run hd (Or.inl hdeck) (fun op hop => (hops op hop).2) hrun' hleft
  exact ⟨d, _, d', replies, replies', htorn, hd, hdeck, hselected, halike, by decide +kernel,
    hkeeps, hrun, hbytes, by decide +kernel, hrun', hbytes', hsame hbytes'⟩

/-- A tape of one byte. -/
def single : Tape := .tapefile (.ofImage [0x41] .standard)

/-- A byte of the tape does get through: it is in the data register of the one board and not of
the other. -/
theorem byte_arrives_on_rs423 :
    ∃ (d b' d' : Board Unit) (replies replies' : List Reply),
      (listener single).Reachable ∧ d.Reachable ∧ d.acia.chip.deck = none ∧
      (listener single).OnRs423 ∧ Alike (listener single).acia d.acia ∧
      (∀ op ∈ [.switchMotor true, .poll 1], KeepsRs423 (op : Operation Unit)) ∧
      (listener single).run [.switchMotor true, .poll 1] = .ok (replies, b') ∧
      d.run [.switchMotor true, .poll 1] = .ok (replies', d') ∧
      b'.acia.chip.data = 0x41 ∧ d'.acia.chip.data = 0 ∧
      b'.acia.chip.status ≠ d'.acia.chip.status := by
  let d : Board Unit := plain.after [.selectRs423 true]
  have halike : Alike (listener single).acia d.acia := ⟨rfl, rfl, rfl, rfl⟩
  have hops : ∀ op ∈ [.switchMotor true, .poll 1], KeepsRs423 (op : Operation Unit) := by
    intro op hop
    simp only [List.mem_cons, List.not_mem_nil, or_false] at hop
    rcases hop with rfl | rfl <;> trivial
  obtain ⟨replies, hrun⟩ :=
    run_after (listener single) [.switchMotor true, .poll 1] (by decide +kernel)
  obtain ⟨replies', hrun'⟩ := run_after d [.switchMotor true, .poll 1] (by decide +kernel)
  exact ⟨d, _, _, replies, replies', reachable_listener single, reachable_plain.after _, rfl,
    by decide +kernel, halike, hops, hrun, hrun', by decide +kernel, by decide +kernel,
    by decide +kernel⟩

end Board

end Cassette
