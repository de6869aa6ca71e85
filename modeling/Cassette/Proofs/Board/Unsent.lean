import Cassette.Proofs.Acia.Receiver
import Cassette.Proofs.Board.Safety

/-!
# Bytes that are written in vain

While the cassette is selected, a byte that is written to the data register is never heard.  Such
bytes can come and go in a history, and only the transmit register and its timer show it: the tape
plays the same on the same cycles, the line is polled when it is, and the program reads the same.

## Main definitions

* `unsent` — a history without the bytes that are written while the cassette is selected.
* `Reply.veiled`, `answers` — what is answered, apart from the transmit register.
* `Board.Agree` — two boards that differ in their transmitters alone.

## Main results

* `unsent_insert` — where bytes may be inserted.
* `agree_perform` — boards that agree go on to agree.
* `agree_run` — with or without the bytes a history comes to boards that agree.
-/

namespace Cassette.Board

variable {ρ : Type}

/-! ### Histories -/

/-- A byte is written to the data register. -/
def Operation.sends : Operation ρ → Bool
  | .write address _ => Acia.isData address
  | _ => false

/-- A history, of operations or of what has to do with them, without the bytes that are written
while the cassette is selected. -/
def unsent {α : Type} (op : α → Operation ρ) (selected : Bool) : List α → List α
  | [] => []
  | x :: xs =>
    if (op x).sends && !selected then unsent op selected xs
    else x :: unsent op ((op x).selection selected) xs

/-- An answer without the transmit register, which is bit 1 of the status register. -/
def Reply.veiled (op : Operation ρ) (reply : Reply) : Reply :=
  match op, reply with
  | .read address, .byte b => .byte (if Acia.isData address then b else b &&& 0xFD)
  | _, reply => reply

/-- What a history answers, apart from the transmit register. -/
def answers (selected : Bool) (ops : List (Operation ρ)) (replies : List Reply) : List Reply :=
  (unsent Prod.fst selected (ops.zip replies)).map fun x => x.2.veiled x.1

theorem selection_of_sends {op : Operation ρ} (h : op.sends = true) (selected : Bool) :
    op.selection selected = selected := by
  cases op with
  | write address value => rfl
  | _ => simp [Operation.sends] at h

theorem forall_unsent {P : Operation ρ → Prop} (hP : ∀ op, op.sends = true → P op)
    (selected : Bool) (ops : List (Operation ρ)) :
    (∀ op ∈ unsent id selected ops, P op) ↔ ∀ op ∈ ops, P op := by
  induction ops generalizing selected with
  | nil => rfl
  | cons op ops ih =>
    rw [unsent, List.forall_mem_cons]
    split
    · next h =>
      have hop : P op := hP op (Bool.and_eq_true_iff.mp h).1
      rw [ih]
      exact (and_iff_right hop).symm
    · rw [List.forall_mem_cons, ih]

/-- Bytes take no time to be written. -/
theorem elapsed_unsent (selected : Bool) (ops : List (Operation ρ)) :
    elapsed (unsent id selected ops) = elapsed ops := by
  induction ops generalizing selected with
  | nil => rfl
  | cons op ops ih =>
    rw [unsent]
    split
    · next h =>
      have htime : op.elapsed = 0 := by
        cases op with
        | poll cycles => simp [Operation.sends] at h
        | _ => rfl
      rw [ih, elapsed, htime, Nat.zero_add]
    · rw [elapsed, elapsed, ih]

/-- A byte may be inserted wherever the cassette is selected. -/
theorem unsent_insert {w : Operation ρ} (hw : w.sends = true) {selected : Bool}
    (before after : List (Operation ρ))
    (hcassette : before.foldl Operation.selection selected = false) :
    unsent id selected (before ++ w :: after) = unsent id selected (before ++ after) := by
  induction before generalizing selected with
  | nil =>
    obtain rfl : selected = false := hcassette
    rw [List.nil_append, unsent, id_eq, hw]
    rfl
  | cons op before ih =>
    rw [List.cons_append, List.cons_append, unsent, unsent]
    split
    · next h =>
      have hsends : op.sends = true := (Bool.and_eq_true_iff.mp h).1
      rw [List.foldl_cons, selection_of_sends hsends] at hcassette
      exact ih hcassette
    · exact congrArg _ (ih hcassette)

/-! ### Boards that agree -/

/-- The boards differ in their transmitters alone. -/
structure Agree (b d : Board ρ) : Prop where
  acia : b.acia.Agree d.acia
  ula : b.ula = d.ula
  shelf : b.shelf = d.shelf

namespace Agree

variable {b d e : Board ρ}

theorem symm (h : b.Agree d) : d.Agree b := ⟨h.acia.symm, h.ula.symm, h.shelf.symm⟩

theorem trans (h : b.Agree d) (h' : d.Agree e) : b.Agree e :=
  ⟨h.acia.trans h'.acia, h.ula.trans h'.ula, h.shelf.trans h'.shelf⟩

theorem handled (h : b.Agree d) (op : Operation ρ) : b.handled op = d.handled op := by
  unfold Board.handled
  rw [h.acia.deck, h.shelf]

theorem answer (h : b.Agree d) (op : Operation ρ) :
    (b.answer op).veiled op = (d.answer op).veiled op := by
  cases op with
  | read address => exact congrArg Reply.byte (h.acia.veiled_read address)
  | insert | eject | reinsert =>
    unfold Board.answer
    rw [h.acia.deck, h.shelf]
  | _ => rfl

end Agree

variable [Acia.SerialPeer ρ]

theorem Reachable.agree_refl {b : Board ρ} (hb : b.Reachable) : b.Agree b :=
  ⟨.refl ⟨hb.sound.timed.bodies, hb.sound.timed.orderly⟩, rfl, rfl⟩

theorem Agree.outcome {b d : Board ρ} (h : b.Agree d) (op : Operation ρ) :
    (b.outcome op).Agree (d.outcome op) := by
  have hrouted (u : SerialUla) : (b.acia.routed u).Agree (d.acia.routed u) :=
    ((h.acia.rated _).switched _).selected _
  cases op with
  | read address => exact h.acia.read address
  | write address value => exact h.acia.written address value
  | reset => exact h.acia.reset
  | selectRs423 selected => exact h.acia.selected selected
  | setCarrier level => exact h.acia.setCarrier level
  | receive byte => exact h.acia.onChip (f := (·.receive byte)) fun _ => rfl
  | switchMotor on => exact h.acia.switched on
  | setReceiveRate rate => exact h.acia.rated rate
  | insert data clock => exact h.acia.opened _
  | eject => exact h.acia.unloaded
  | reinsert =>
    change (b.shelf.elim b.acia b.acia.loaded).Agree (d.shelf.elim d.acia d.acia.loaded)
    rw [h.shelf]
    cases d.shelf with
    | none => exact h.acia
    | some tape => exact h.acia.loaded tape
  | rewind => exact h.acia.rewind
  | ulaWrite value => exact hrouted _
  | ulaRead => exact hrouted _
  | attachPeer peer => exact h.acia.onChip (f := ({ · with peer })) fun _ => rfl
  | attachTone attached =>
    exact h.acia.onChip (f := ({ · with toneAttached := attached })) fun _ => rfl
  | attachNoise attached =>
    exact h.acia.onChip (f := ({ · with noiseAttached := attached })) fun _ => rfl
  | poll | ulaReset => exact h.acia

/-- Chips that agree report the same when time passes, and go on to agree. -/
theorem agree_poll {a d a' d' : Acia ρ} (ha : a.Sound) (hd : d.Sound) (h : a.Agree d)
    {cycles : Cycles} {e e' : Option Tape.Error} (hpoll : a.poll cycles = .ok (e, a'))
    (hpoll' : d.poll cycles = .ok (e', d')) : e = e' ∧ a'.Agree d' := by
  obtain ⟨timers, chip, hadv, rfl, rfl⟩ := Acia.Sound.poll_ok hpoll
  obtain ⟨timers', chip', hadv', rfl, rfl⟩ := Acia.Sound.poll_ok hpoll'
  obtain ⟨htimed, hepoch, -⟩ := ha.timed.of_advance hadv
  obtain ⟨htimed', hepoch', -⟩ := hd.timed.of_advance hadv'
  -- the firings up to the same cycle lead from one receiver to one receiver
  have hstart : Acia.Receiver.of a.timers a.chip = .of d.timers d.chip := by
    unfold Acia.Receiver.of
    rw [h.chip, h.others]
  have huntil := Acia.receiver_advance ha.timed hadv
  rw [hstart, h.now] at huntil
  have hreceiver := huntil.unique (Acia.receiver_advance hd.timed hadv')
  have hchip : chip.fill = chip'.fill := congrArg Acia.Receiver.chip hreceiver
  refine ⟨(congrArg Acia.Chip.deckError hchip :), ?_, congrArg Acia.Receiver.pending hreceiver, ?_,
    h.transmitDelay, ⟨htimed.bodies, htimed.orderly⟩, ⟨htimed'.bodies, htimed'.orderly⟩⟩
  · exact (congrArg (fun c => { c with deckError := none }) hchip :)
  · change timers.epoch = timers'.epoch
    rw [hepoch, hepoch', h.now]

/-- Boards that agree go on to agree, and but for the transmit register they answer the same. -/
theorem agree_perform {b d b' d' : Board ρ} (hb : b.Reachable) (hd : d.Reachable)
    (h : b.Agree d) {op : Operation ρ} {reply reply' : Reply}
    (hperform : b.perform op = .ok (reply, b')) (hperform' : d.perform op = .ok (reply', d')) :
    b'.Agree d' ∧ reply.veiled op = reply'.veiled op := by
  by_cases hop : ∃ cycles, op = .poll cycles
  · obtain ⟨cycles, rfl⟩ := hop
    obtain ⟨⟨e, a⟩, hpoll, hperform⟩ := bind_ok hperform
    obtain ⟨⟨e', a'⟩, hpoll', hperform'⟩ := bind_ok hperform'
    obtain ⟨rfl, rfl⟩ := Prod.mk.inj (Except.ok.inj hperform)
    obtain ⟨rfl, rfl⟩ := Prod.mk.inj (Except.ok.inj hperform')
    obtain ⟨rfl, hagree⟩ := agree_poll hb.sound hd.sound h.acia hpoll hpoll'
    exact ⟨⟨hagree, h.ula, h.shelf⟩, rfl⟩
  · have hop := fun cycles heq => hop ⟨cycles, heq⟩
    obtain ⟨rfl, hula⟩ := perform_answer hperform hop
    obtain ⟨rfl, hula'⟩ := perform_answer hperform' hop
    refine ⟨⟨?_, ?_, ?_⟩, h.answer op⟩
    · rw [perform_outcome hb.sound hb.transmitDelay_ne_zero hperform hop,
        perform_outcome hd.sound hd.transmitDelay_ne_zero hperform' hop]
      exact h.outcome op
    · rw [hula, hula', h.ula]
    · rw [(perform_steps hperform hop).2, (perform_steps hperform' hop).2, h.handled op]

/-- While the cassette is selected, a board to which a byte is written goes on to agree with what
it agrees with. -/
theorem agree_sent {b d b' : Board ρ} (hb : b.Reachable) (h : b.Agree d)
    (hcassette : b.acia.chip.rs423Selected = false) {op : Operation ρ} (hop : op.sends = true)
    {reply : Reply} (hperform : b.perform op = .ok (reply, b')) : b'.Agree d := by
  cases op with
  | write address value =>
    have hnot : ∀ cycles, (.write address value : Operation ρ) ≠ .poll cycles := by simp
    refine ⟨?_, (perform_answer hperform hnot).2.trans h.ula,
      (perform_steps hperform hnot).2.trans h.shelf⟩
    rw [perform_outcome hb.sound hb.transmitDelay_ne_zero hperform hnot]
    exact h.acia.sent hcassette hop value
  | _ => simp [Operation.sends] at hop

/-- A history comes to the same, but for the transmitter, as what is left of it without the bytes
that are written while the cassette is selected. -/
theorem agree_run {b d b' d' : Board ρ} (hb : b.Reachable) (hd : d.Reachable) (h : b.Agree d)
    {ops left : List (Operation ρ)} (hleft : unsent id b.acia.chip.rs423Selected ops = left)
    {replies replies' : List Reply} (hrun : b.run ops = .ok (replies, b'))
    (hrun' : d.run left = .ok (replies', d')) :
    b'.Agree d' ∧ answers b.acia.chip.rs423Selected ops replies
      = (left.zip replies').map fun x => x.2.veiled x.1 := by
  induction ops generalizing b d left replies replies' with
  | nil =>
    subst hleft
    obtain ⟨rfl, rfl⟩ := Prod.mk.inj (Except.ok.inj hrun)
    obtain ⟨rfl, rfl⟩ := Prod.mk.inj (Except.ok.inj hrun')
    exact ⟨h, rfl⟩
  | cons op ops ih =>
    obtain ⟨reply, rest, b₁, hperform, hrest, rfl⟩ := run_cons_iff.mp hrun
    have hb₁ := hb.perform hperform
    have hselection := perform_selection hb hperform
    have hcons : answers b.acia.chip.rs423Selected (op :: ops) (reply :: rest)
        = if op.sends && !b.acia.chip.rs423Selected then
            answers b.acia.chip.rs423Selected ops rest
          else reply.veiled op :: answers b₁.acia.chip.rs423Selected ops rest := by
      rw [answers, List.zip_cons_cons, unsent, hselection]
      split <;> rfl
    rw [hcons]
    rw [unsent, id_eq] at hleft
    by_cases hsent : (op.sends && !b.acia.chip.rs423Selected) = true
    · -- the byte is left out
      rw [if_pos hsent] at hleft ⊢
      obtain ⟨hsends, hcassette⟩ := Bool.and_eq_true_iff.mp hsent
      have hcassette : b.acia.chip.rs423Selected = false := by simpa using hcassette
      rw [selection_of_sends hsends] at hselection
      rw [← hselection] at hleft ⊢
      exact ih hb₁ hd (agree_sent hb h hcassette hsends hperform) hleft hrest hrun'
    · rw [if_neg hsent] at hleft ⊢
      subst hleft
      obtain ⟨reply', rest', d₁, hperform', hrest', rfl⟩ := run_cons_iff.mp hrun'
      obtain ⟨hagree, hreply⟩ := agree_perform hb hd h hperform hperform'
      obtain ⟨hlast, hanswers⟩ := ih hb₁ (hd.perform hperform') hagree
        (congrArg (unsent id · ops) hselection) hrest hrest'
      refine ⟨hlast, ?_⟩
      rw [List.zip_cons_cons, List.map_cons, hreply, hanswers]

end Cassette.Board
