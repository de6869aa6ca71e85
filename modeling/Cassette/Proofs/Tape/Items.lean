import Mathlib.Logic.ExistsUnique
import Cassette.Proofs.Tape.Beat
import Cassette.Proofs.Tape.Reading

/-!
# What a tapefile can be played on

The bytes of the items of a tapefile say where each item ends, so an image is the image of at most
one list of items.  An image that is none of any list is found out where its playing comes to a
pair of bytes that means nothing or to an escape that stands alone at the end; the playing then
goes on after it.

## Main definitions

* `Item.beat` — what the poll of an item does and asks for.
* `Misfit` — no item stands at a position, and the error that tells of it.
* `afterPolls`, `nthPoll` — polls in a row, each with a control register of its own.

## Main results

* `Item.read_encode`, `Misfit.read` — what is read where an item stands, and where none does.
* `prefix_of_encode` — the items before a misfit are the longest that an image begins with.
* `afterPolls_encode`, `nthPoll_encode` — items are played one in a poll.
* `plays_iff_encode` — **a tapefile is played without an error exactly if it is the image of some
  items, and fails first where the longest such beginning ends.**
-/

namespace Cassette.Tape.Tapefile

/-! ### Reading an item -/

section

variable {region : Region} {offset : Nat} {rest : List UInt8}

theorem read_plain {b : UInt8} (h : b ≠ escape) :
    Item.read ⟨region, offset, b :: rest⟩ = (.ok (.byte b), ⟨region, offset + 1, rest⟩) := by
  unfold Item.read
  rw [Reader.bind_eq_of_ok (Reader.byte_cons b rest), if_pos h]
  rfl

theorem read_pair (e : UInt8) :
    Item.read ⟨region, offset, escape :: e :: rest⟩
      = (if e = 0x00 then .ok .carrierLost
          else if e = 0x04 then .ok .carrierPresent
          else if e = escape then .ok (.byte e)
          else .error (.unexpectedEscape e), ⟨region, offset + 2, rest⟩) := by
  unfold Item.read
  rw [Reader.bind_eq_of_ok (Reader.byte_cons escape (e :: rest)), if_neg (by simp)]
  rw [Reader.bind_eq_of_ok (Reader.byte_cons e rest)]
  split
  · rfl
  split
  · rfl
  split <;> rfl

theorem read_lone :
    Item.read ⟨region, offset, [escape]⟩
      = (.error (.truncated region (offset + 1) 1 0), ⟨region, offset + 1, []⟩) := by
  unfold Item.read
  rw [Reader.bind_eq_of_ok (Reader.byte_cons escape []), if_neg (by simp)]
  exact Reader.bind_eq_of_error Reader.byte_nil

/-- An item is read back from its bytes, whatever stands after them. -/
theorem Item.read_encode (item : Item) :
    Item.read ⟨region, offset, item.encode ++ rest⟩
      = (.ok item, ⟨region, offset + item.encode.length, rest⟩) := by
  cases item with
  | byte b =>
    by_cases h : b = escape
    · subst h
      exact read_pair escape
    · rw [Item.encode, if_neg h]
      exact read_plain h
  | carrierLost => exact read_pair 0x00
  | carrierPresent => exact read_pair 0x04

end

theorem Item.encode_ne_nil (item : Item) : item.encode ≠ [] := by
  cases item with
  | byte b =>
    rw [Item.encode]
    split <;> simp
  | carrierLost | carrierPresent => simp [Item.encode]

@[simp] theorem encode_nil : encode [] = [] := rfl

@[simp] theorem encode_cons (item : Item) (items : List Item) :
    encode (item :: items) = item.encode ++ encode items := rfl

theorem encode_append (items items' : List Item) :
    encode (items ++ items') = encode items ++ encode items' := List.flatMap_append

/-! ### Where no item stands -/

/-- No item stands at the start of `bytes`, which are at `offset` of an image: they begin with a
pair that means nothing, or are an escape alone.  The read that finds it out fails with the error
and takes up `width` bytes. -/
inductive Misfit (offset : Nat) (bytes : List UInt8) : Error → (width : Nat) → Prop where
  | pair {x : UInt8} {rest : List UInt8} (hbytes : bytes = escape :: x :: rest)
      (hlost : x ≠ 0x00) (hpresent : x ≠ 0x04) (hliteral : x ≠ escape) :
      Misfit offset bytes (.unexpectedEscape x) 2
  | lone (hbytes : bytes = [escape]) :
      Misfit offset bytes (.truncated .tapefile (offset + 1) 1 0) 1

theorem Misfit.read {offset width : Nat} {bytes : List UInt8} {e : Error}
    (h : Misfit offset bytes e width) :
    Item.read ⟨.tapefile, offset, bytes⟩
      = (.error e, ⟨.tapefile, offset + width, bytes.drop width⟩) := by
  cases h with
  | pair hbytes hlost hpresent hliteral =>
    rw [hbytes, read_pair, if_neg hlost, if_neg hpresent, if_neg hliteral]
    rfl
  | lone hbytes =>
    rw [hbytes, read_lone]
    rfl

/-- Where an item stands there is no misfit. -/
theorem Misfit.ne_encode {offset width : Nat} {bytes rest : List UInt8} {e : Error}
    (h : Misfit offset bytes e width) (item : Item) : bytes ≠ item.encode ++ rest := by
  intro hbytes
  have hread := h.read
  rw [hbytes, Item.read_encode] at hread
  simp at hread

/-- Where there are bytes there is an item or a misfit. -/
theorem item_or_misfit (offset : Nat) {bytes : List UInt8} (h : bytes ≠ []) :
    (∃ item : Item, ∃ rest, bytes = item.encode ++ rest) ∨
      ∃ e width, Misfit offset bytes e width := by
  match bytes, h with
  | b :: rest, _ =>
    by_cases hb : b = escape
    · subst hb
      cases rest with
      | nil => exact Or.inr ⟨_, _, .lone rfl⟩
      | cons x rest =>
        by_cases hlost : x = 0x00
        · exact Or.inl ⟨.carrierLost, rest, by rw [hlost]; rfl⟩
        by_cases hpresent : x = 0x04
        · exact Or.inl ⟨.carrierPresent, rest, by rw [hpresent]; rfl⟩
        by_cases hliteral : x = escape
        · exact Or.inl ⟨.byte escape, rest, by rw [hliteral]; rfl⟩
        · exact Or.inr ⟨_, _, .pair rfl hlost hpresent hliteral⟩
    · refine Or.inl ⟨.byte b, rest, ?_⟩
      rw [Item.encode, if_neg hb]
      rfl

/-- Every image is items, and after them either nothing or a misfit. -/
theorem exists_items (offset : Nat) (bytes : List UInt8) :
    ∃ items tail, bytes = encode items ++ tail ∧
      (tail = [] ∨ ∃ e width, Misfit (offset + (encode items).length) tail e width) := by
  by_cases hne : bytes = []
  · exact ⟨[], [], by simp [hne], Or.inl rfl⟩
  · rcases item_or_misfit offset hne with ⟨item, rest, rfl⟩ | hmisfit
    · have hpos := List.length_pos_iff.mpr item.encode_ne_nil
      have hlt : rest.length < (item.encode ++ rest).length := by
        rw [List.length_append]
        omega
      obtain ⟨items, tail, hrest, htail⟩ := exists_items (offset + item.encode.length) rest
      refine ⟨item :: items, tail, ?_, ?_⟩
      · rw [encode_cons, List.append_assoc, ← hrest]
      · rw [encode_cons, List.length_append, ← Nat.add_assoc]
        exact htail
    · exact ⟨[], bytes, rfl, Or.inr hmisfit⟩
termination_by bytes.length

/-! ### The longest beginning that is an image -/

/-- Where one item stands, no other does. -/
theorem Item.encode_inj {item item' : Item} {rest rest' : List UInt8}
    (h : item.encode ++ rest = item'.encode ++ rest') : item = item' ∧ rest = rest' := by
  have hread : Item.read ⟨.tapefile, 0, item.encode ++ rest⟩ = _ := item.read_encode
  rw [h, Item.read_encode] at hread
  simp only [Prod.mk.injEq, Except.ok.injEq, Cursor.mk.injEq] at hread
  exact ⟨hread.1.symm, hread.2.2.2.symm⟩

/-- The items before the end or before a misfit are the longest list whose image the bytes begin
with. -/
theorem prefix_of_encode (offset : Nat) {items : List Item} {tail : List UInt8}
    (htail : tail = [] ∨ ∃ e width, Misfit offset tail e width) :
    ∀ items' : List Item, encode items' <+: encode items ++ tail → items' <+: items := by
  intro items'
  induction items' generalizing items with
  | nil =>
    intro _
    exact List.nil_prefix
  | cons item' items' ih =>
    rintro ⟨rest', hbytes⟩
    rw [encode_cons, List.append_assoc] at hbytes
    cases items with
    | nil =>
      -- the first item would stand where there is nothing, or where there is a misfit
      rw [encode_nil, List.nil_append] at hbytes
      rcases htail with rfl | ⟨e, width, hmisfit⟩
      · exact absurd (List.append_eq_nil_iff.mp hbytes).1 item'.encode_ne_nil
      · exact absurd hbytes.symm (hmisfit.ne_encode item')
    | cons item items =>
      rw [encode_cons, List.append_assoc] at hbytes
      obtain ⟨rfl, hrest⟩ := Item.encode_inj hbytes
      exact List.cons_prefix_cons.mpr ⟨rfl, ih ⟨rest', hrest⟩⟩

theorem encode_injective {items items' : List Item} (h : encode items = encode items') :
    items = items' := by
  have hle : items <+: items' := prefix_of_encode 0 (Or.inl rfl) items ⟨[], by rw [h]⟩
  have hge : items' <+: items := prefix_of_encode 0 (Or.inl rfl) items' ⟨[], by rw [h]⟩
  exact hle.eq_of_length_le hge.length_le

/-! ### Single polls -/

/-- What the poll of an item does and asks for: a byte arrives and takes its time on the wire, the
loss of the carrier takes no time, and the carrier is present for five seconds. -/
def Item.beat (clock : Clock) (control : UInt8) : Item → Beat
  | .byte b => ⟨[.byte b], .ok (byteTime clock control)⟩
  | .carrierLost => ⟨[.carrier false], .ok 0⟩
  | .carrierPresent => ⟨[.carrier true], .ok (clock.cyclesOfSeconds 5.0)⟩

/-- A notice about the divider is told, but is no call. -/
theorem Item.beat_eq (clock : Clock) (control : UInt8) (item : Item) :
    item.beat clock control
      = ⟨(item.signals control).filter Signal.isCall, .ok (item.time clock control)⟩ := by
  cases item with
  | byte b =>
    rw [Item.signals]
    split <;> rfl
  | carrierLost | carrierPresent => rfl

/-- The tape of an image, wound to an offset. -/
def wound (image : List UInt8) (clock : Clock) (offset : Nat) : Tapefile :=
  ⟨image, clock, .seek .tapefile image offset⟩

theorem isFinished_wound {image : List UInt8} {clock : Clock} {offset : Nat} :
    (wound image clock offset).isFinished = true ↔ image.drop offset = [] := by
  unfold isFinished wound Cursor.atEnd Cursor.seek
  exact List.isEmpty_iff

theorem poll_finished {t : Tapefile} (h : t.isFinished = true) (control : UInt8) :
    t.poll control = { signals := [], delay := .ok idleDelay, tape := t } := by
  have hend : t.cursor.atEnd = true := h
  rw [poll, if_pos hend]

section

variable {image : List UInt8} {clock : Clock} {offset : Nat}

theorem poll_item (clock : Clock) {item : Item} {rest : List UInt8}
    (h : image.drop offset = item.encode ++ rest) (control : UInt8) :
    ((wound image clock offset).poll control).beat = item.beat clock control ∧
      ((wound image clock offset).poll control).tape
        = wound image clock (offset + item.encode.length) := by
  have hrest : rest = image.drop (offset + item.encode.length) := by
    rw [← List.drop_drop, h, List.drop_left]
  have hend : ¬ (wound image clock offset).cursor.atEnd = true := by
    intro hend
    rw [isFinished_wound.mp hend] at h
    exact item.encode_ne_nil (List.append_eq_nil_iff.mp h.symm).1
  have hread : Item.read (wound image clock offset).cursor
      = (.ok item, ⟨.tapefile, offset + item.encode.length, rest⟩) := by
    rw [wound, Cursor.seek, h]
    exact item.read_encode
  rw [poll, if_neg hend, hread, hrest]
  exact ⟨(item.beat_eq clock control).symm, rfl⟩

theorem poll_misfit (clock : Clock) {e : Error} {width : Nat}
    (h : Misfit offset (image.drop offset) e width) (control : UInt8) :
    ((wound image clock offset).poll control).beat = ⟨[], .error e⟩ ∧
      ((wound image clock offset).poll control).tape = wound image clock (offset + width) := by
  have hend : ¬ (wound image clock offset).cursor.atEnd = true := by
    intro hend
    rw [isFinished_wound.mp hend] at h
    cases h with
    | pair hbytes | lone hbytes => simp at hbytes
  have hread : Item.read (wound image clock offset).cursor
      = (.error e, ⟨.tapefile, offset + width, (image.drop offset).drop width⟩) := h.read
  rw [List.drop_drop] at hread
  rw [poll, if_neg hend, hread]
  exact ⟨rfl, rfl⟩

end

/-! ### Polls in a row -/

/-- The tape after `n` polls, of which the poll `m` finds the control register `control m`. -/
def afterPolls (control : Nat → UInt8) (t : Tapefile) : Nat → Tapefile
  | 0 => t
  | n + 1 => ((t.afterPolls control n).poll (control n)).tape

/-- The poll `n` of such a row. -/
def nthPoll (control : Nat → UInt8) (t : Tapefile) (n : Nat) : Played Tapefile :=
  (t.afterPolls control n).poll (control n)

/-- A tape that has come to its end stays there. -/
theorem isFinished_mono {control : Nat → UInt8} {t : Tapefile} {m n : Nat} (hle : m ≤ n)
    (h : (t.afterPolls control m).isFinished = true) :
    (t.afterPolls control n).isFinished = true := by
  induction hle with
  | refl => exact h
  | step _ ih =>
    rw [afterPolls, poll_finished ih]
    exact ih

section

variable (image : List UInt8) (clock : Clock) (control : Nat → UInt8)

/-- After any number of polls the tape is at some offset, and each of them has taken up a byte at
least, unless the tape has come to its end. -/
theorem exists_afterPolls (n : Nat) :
    ∃ offset, (ofImage image clock).afterPolls control n = wound image clock offset ∧
      (n ≤ offset ∨ image.length ≤ offset) := by
  induction n with
  | zero => exact ⟨0, rfl, Or.inl (Nat.le_refl 0)⟩
  | succ n ih =>
    obtain ⟨offset, htape, hle⟩ := ih
    rw [afterPolls, htape]
    by_cases hend : image.drop offset = []
    · rw [poll_finished (isFinished_wound.mpr hend)]
      exact ⟨offset, rfl, Or.inr (List.drop_eq_nil_iff.mp hend)⟩
    · rcases item_or_misfit offset hend with ⟨item, rest, hitem⟩ | ⟨e, width, hmisfit⟩
      · have hpos := List.length_pos_iff.mpr item.encode_ne_nil
        exact ⟨_, (poll_item clock hitem _).2, by omega⟩
      · have hpos : 0 < width := by cases hmisfit <;> omega
        exact ⟨_, (poll_misfit clock hmisfit _).2, by omega⟩

theorem isFinished_of_length_le {n : Nat} (h : image.length ≤ n) :
    ((ofImage image clock).afterPolls control n).isFinished = true := by
  obtain ⟨offset, htape, hle⟩ := exists_afterPolls image clock control n
  rw [htape]
  exact isFinished_wound.mpr (List.drop_eq_nil_iff.mpr (by omega))

/-- A poll that fails has come to a misfit, and leaves the tape behind it. -/
theorem misfit_of_error {n : Nat} {e : Error}
    (h : ((ofImage image clock).nthPoll control n).delay = .error e) :
    ∃ offset width, (ofImage image clock).afterPolls control n = wound image clock offset ∧
      Misfit offset (image.drop offset) e width ∧
      (ofImage image clock).afterPolls control (n + 1) = wound image clock (offset + width) := by
  obtain ⟨offset, htape, -⟩ := exists_afterPolls image clock control n
  rw [nthPoll, htape] at h
  rw [afterPolls, htape]
  by_cases hend : image.drop offset = []
  · rw [poll_finished (isFinished_wound.mpr hend)] at h
    simp at h
  · rcases item_or_misfit offset hend with ⟨item, rest, hitem⟩ | ⟨e', width, hmisfit⟩
    · have hdelay := congrArg Beat.delay (poll_item clock hitem (control n)).1
      rw [item.beat_eq] at hdelay
      exact absurd (h.symm.trans hdelay) (by simp)
    · obtain ⟨hbeat, hnext⟩ := poll_misfit clock hmisfit (control n)
      obtain rfl : e' = e := Except.error.inj ((congrArg Beat.delay hbeat).symm.trans h)
      exact ⟨offset, width, rfl, hmisfit, hnext⟩

variable {image} {items : List Item} {tail : List UInt8}

theorem drop_encode (himage : image = encode items ++ tail) {n : Nat} (h : n < items.length) :
    image.drop (encode (items.take n)).length
      = items[n].encode ++ (encode (items.drop (n + 1)) ++ tail) := by
  have hsplit : image = encode (items.take n) ++ (encode (items.drop n) ++ tail) := by
    rw [← List.append_assoc, ← encode_append, List.take_append_drop, himage]
  rw [hsplit, List.drop_left, List.drop_eq_getElem_cons h, encode_cons, List.append_assoc]

/-- Items are played one in a poll, whatever stands after them. -/
theorem afterPolls_encode (himage : image = encode items ++ tail) {n : Nat}
    (hn : n ≤ items.length) :
    (ofImage image clock).afterPolls control n
      = wound image clock (encode (items.take n)).length := by
  induction n with
  | zero => rfl
  | succ n ih =>
    have htake : items.take (n + 1) = items.take n ++ [items[n]] :=
      List.take_succ_eq_append_getElem hn
    rw [afterPolls, ih (Nat.le_of_succ_le hn), (poll_item clock (drop_encode himage hn) _).2, htake,
      encode_append, List.length_append, encode_cons, encode_nil, List.append_nil]

theorem nthPoll_encode (himage : image = encode items ++ tail) {n : Nat} (h : n < items.length) :
    ((ofImage image clock).nthPoll control n).beat = items[n].beat clock (control n) := by
  rw [nthPoll, afterPolls_encode clock control himage (Nat.le_of_lt h)]
  exact (poll_item clock (drop_encode himage h) _).1

/-- The image of some items is finished after the last of them, and not before. -/
theorem isFinished_encode {n : Nat} :
    ((ofImage (encode items) clock).afterPolls control n).isFinished = true
      ↔ items.length ≤ n := by
  have himage : encode items = encode items ++ [] := (List.append_nil _).symm
  constructor
  · intro hfinished
    refine Nat.not_lt.mp fun h => ?_
    rw [afterPolls_encode clock control himage (Nat.le_of_lt h), isFinished_wound,
      drop_encode himage h] at hfinished
    exact items[n].encode_ne_nil (List.append_eq_nil_iff.mp hfinished).1
  · intro hle
    refine isFinished_mono hle ?_
    rw [afterPolls_encode clock control himage (Nat.le_refl _), isFinished_wound, List.take_length,
      List.drop_length]

/-- Behind the last of the items that an image begins with, a misfit is found out. -/
theorem nthPoll_misfit (himage : image = encode items ++ tail) {e : Error} {width : Nat}
    (h : Misfit (encode items).length tail e width) :
    ((ofImage image clock).nthPoll control items.length).beat = ⟨[], .error e⟩ := by
  have htail : image.drop (encode items).length = tail := by rw [himage, List.drop_left]
  rw [← htail] at h
  rw [nthPoll, afterPolls_encode clock control himage (Nat.le_refl _), List.take_length]
  exact (poll_misfit clock h _).1

end

/-! ### The images that play -/

theorem plays_encode (items : List Item) (clock : Clock) (control : Nat → UInt8) (n : Nat) :
    ∃ delay, ((ofImage (encode items) clock).nthPoll control n).beat.delay = .ok delay := by
  by_cases h : n < items.length
  · rw [nthPoll_encode clock control (List.append_nil _).symm h, Item.beat_eq]
    exact ⟨_, rfl⟩
  · have hfinished : ((ofImage (encode items) clock).afterPolls control n).isFinished = true :=
      (isFinished_encode clock control).mpr (Nat.not_lt.mp h)
    rw [nthPoll, poll_finished hfinished]
    exact ⟨_, rfl⟩

/-- **A tapefile is played without an error exactly if it is the image of some items, and fails
first where the longest such beginning ends.**  The image of some items is played one item in a
poll, whatever the control register holds at each of them, and is finished after the last.  No
other image is played without an error: the items of its longest beginning that is an image are
played, and the poll after them fails at the misfit.  After every failure the next poll goes on
behind the misfit, so that no image takes more polls than it has bytes. -/
theorem plays_iff_encode (image : List UInt8) (clock : Clock) (control : Nat → UInt8) :
    let tape := ofImage image clock
    (∀ items, image = encode items →
      (∀ n (h : n < items.length),
        (tape.nthPoll control n).beat = items[n].beat clock (control n)) ∧
      ∀ n, (tape.afterPolls control n).isFinished = true ↔ items.length ≤ n) ∧
    ((∀ n, ∃ delay, (tape.nthPoll control n).beat.delay = .ok delay) ↔
      ∃! items, image = encode items) ∧
    ((¬ ∃ items, image = encode items) →
      ∃ items e width, encode items <+: image ∧
        (∀ items', encode items' <+: image → items' <+: items) ∧
        (∀ n (h : n < items.length),
          (tape.nthPoll control n).beat = items[n].beat clock (control n)) ∧
        Misfit (encode items).length (image.drop (encode items).length) e width ∧
        (tape.nthPoll control items.length).beat = ⟨[], .error e⟩) ∧
    (∀ n e, (tape.nthPoll control n).beat.delay = .error e →
      ∃ offset width, tape.afterPolls control n = wound image clock offset ∧
        Misfit offset (image.drop offset) e width ∧
        tape.afterPolls control (n + 1) = wound image clock (offset + width)) ∧
    ∀ n, image.length ≤ n → (tape.afterPolls control n).isFinished = true := by
  intro tape
  obtain ⟨items, tail, himage, htail⟩ := exists_items 0 image
  rw [Nat.zero_add] at htail
  refine ⟨?_, ⟨?_, ?_⟩, ?_, fun n e h => misfit_of_error image clock control h,
    fun n h => isFinished_of_length_le image clock control h⟩
  · rintro items rfl
    exact ⟨fun n h => nthPoll_encode clock control (List.append_nil _).symm h,
      fun n => isFinished_encode clock control⟩
  · intro hplays
    rcases htail with rfl | ⟨e, width, hmisfit⟩
    · rw [List.append_nil] at himage
      exact ⟨items, himage, fun items' h => encode_injective (h.symm.trans himage)⟩
    · obtain ⟨delay, hdelay⟩ := hplays items.length
      rw [nthPoll_misfit clock control himage hmisfit] at hdelay
      simp at hdelay
  · rintro ⟨items, rfl, -⟩
    exact plays_encode items clock control
  · intro hnone
    rcases htail with rfl | ⟨e, width, hmisfit⟩
    · exact absurd ⟨items, himage.trans (List.append_nil _)⟩ hnone
    · refine ⟨items, e, width, ⟨tail, himage.symm⟩, ?_, ?_, ?_, ?_⟩
      · rw [himage]
        exact prefix_of_encode _ (Or.inr ⟨e, width, hmisfit⟩)
      · exact fun n h => nthPoll_encode clock control himage h
      · rwa [himage, List.drop_left]
      · exact nthPoll_misfit clock control himage hmisfit

/-- Two escapes, which are one byte; a third, which takes the next byte along; a byte; and an
escape at the very end, which has nothing to take. -/
def stray : List UInt8 := [0xFF, 0xFF, 0xFF, 0x07, 0x41, 0xFF]

/-- The stray escapes fail and the bytes are played, and without stray escapes nothing fails. -/
theorem plays_iff_encode_stray :
    (List.range 4).map (fun n => ((ofImage stray .standard).nthPoll (fun _ => 1) n).beat)
        = [⟨[.byte 0xFF], .ok 16666⟩, ⟨[], .error (.unexpectedEscape 0x07)⟩,
          ⟨[.byte 0x41], .ok 16666⟩, ⟨[], .error (.truncated .tapefile 6 1 0)⟩] ∧
      (¬ ∃! items, stray = encode items) ∧
      ((ofImage stray .standard).afterPolls (fun _ => 1) 6).isFinished = true ∧
      ∃! items, [0xFF, 0xFF, 0xFF, 0x04] = encode items := by
  obtain ⟨-, hplays, -, -, hfinished⟩ := plays_iff_encode stray .standard fun _ => 1
  refine ⟨rfl, ?_, hfinished 6 (Nat.le_refl 6), ?_⟩
  · intro himage
    obtain ⟨delay, hdelay⟩ := hplays.mpr himage 1
    have herror : ((ofImage stray .standard).nthPoll (fun _ => 1) 1).beat.delay
        = .error (.unexpectedEscape 0x07) := rfl
    exact absurd (herror.symm.trans hdelay) (by simp)
  · -- the byte FF and the coming of the carrier
    obtain ⟨-, hplays, -⟩ := plays_iff_encode [0xFF, 0xFF, 0xFF, 0x04] .standard fun _ => 1
    exact hplays.mp (plays_encode [.byte 0xFF, .carrierPresent] .standard fun _ => 1)

end Cassette.Tape.Tapefile
