import Mathlib
import Windoge.Script.Words

/-!
# Scancodes

The keyboard interrupt puts scancodes into a ring of 256 places with counters of eight bits, and the
readers decode what they take from it. The ring is a queue over every interleaving. The decoder keeps
its extended prefix over the codes of the modifiers, which is one code too long.
-/

namespace Windoge.Console

open Function List
open Script (Text text)

/-! ## The decoder -/

/-- `map_lower`. -/
def mapLower : Text :=
  text "\x00\x1b1234567890-=\x00\x00qwertyuiop[]\x00\x00asdfghjkl;'`\x00\\zxcvbnm,./\x00*\x00 "

/-- `map_upper`. -/
def mapUpper : Text :=
  text "\x00\x1b!@#$%^&*()_+\x00\x00QWERTYUIOP\x7b\x7d\x00\x00ASDFGHJKL:\"~\x00|ZXCVBNM<>?\x00*\x00 "

/-- The static variables of `dogeio_decode_key`. -/
structure KeyState where
  escaped : Bool
  shift : Bool
  ctrl : Bool

/-- The key of a code behind the prefix. -/
def extendedKey (code : UInt8) : ℕ :=
  if code = 0x48 then 0x101
  else if code = 0x50 then 0x102
  else if code = 0x4B then 0x103
  else if code = 0x4D then 0x104
  else 0

/-- The key of a code without the prefix. -/
def mappedKey (shift ctrl : Bool) (code : UInt8) : ℕ :=
  if code = 0x1C then 0x0A
  else if code = 0x0E then 0x08
  else if code = 0x0F then if ctrl then 0x112 else 0x09
  else if extendedKey code ≠ 0 then extendedKey code
  else if code < 58 then
    let c := (if shift then mapUpper else mapLower).getD code.toNat 0
    if ctrl ∧ c = 111 then 0x110
    else if ctrl ∧ c = 110 then 0x111
    else if ctrl ∧ 97 ≤ c ∧ c ≤ 122 then c.toNat - 97 + 1
    else if ctrl ∧ 65 ≤ c ∧ c ≤ 90 then c.toNat - 65 + 1
    else c.toNat
  else 0

/-- `dogeio_decode_key`. -/
def dogeioDecodeKey (code : UInt8) (s : KeyState) : ℕ × KeyState :=
  if code = 0xE0 then (0, { s with escaped := true })
  else if code = 0x2A ∨ code = 0x36 then (0, { s with shift := true })
  else if code = 0xAA ∨ code = 0xB6 then (0, { s with shift := false })
  else if code = 0x1D then (0, { s with ctrl := true })
  else if code = 0x9D then (0, { s with ctrl := false })
  else if 0x80 ≤ code then (0, { s with escaped := false })
  else if s.escaped then (extendedKey code, { s with escaped := false })
  else (mappedKey s.shift s.ctrl code, s)

/-- The decoder behind a stream. -/
def decoded (codes : List UInt8) : KeyState :=
  codes.foldl (fun s code => (dogeioDecodeKey code s).2) ⟨false, false, false⟩

/-- The codes of the modifiers, pressed and released. -/
def isModifier (code : UInt8) : Bool := code ∈ [0x2A, 0x36, 0xAA, 0xB6, 0x1D, 0x9D]

/-- The last code that is not one of a modifier. -/
def lastOther (codes : List UInt8) : Option UInt8 := (codes.reverse.dropWhile isModifier).head?

/-- The prefix lasts over the codes of modifiers. -/
theorem decoded_escaped (codes : List UInt8) : (decoded codes).escaped = true ↔ lastOther codes = some 0xE0 := by
  induction codes using List.reverseRecOn with
  | nil => simp [decoded, lastOther]
  | append_singleton codes code ih =>
    have hstep : decoded (codes ++ [code]) = (dogeioDecodeKey code (decoded codes)).2 := by
      rw [decoded, foldl_append]
      rfl
    rw [hstep, lastOther, reverse_append, reverse_singleton, singleton_append, dropWhile_cons]
    unfold lastOther at ih
    unfold dogeioDecodeKey
    split_ifs <;> simp_all [isModifier]

/-- The key of a code, by whether the prefix is on. -/
theorem dogeioDecodeKey_fst (code : UInt8) (s : KeyState) : (dogeioDecodeKey code s).1 =
    if s.escaped then extendedKey code else mappedKey s.shift s.ctrl code := by
  by_cases hsilent : code = 0xE0 ∨ isModifier code ∨ 0x80 ≤ code
  · -- these codes have no key in either table
    have hnone : extendedKey code = 0 ∧ ∀ shift ctrl, mappedKey shift ctrl code = 0 := by
      revert code
      decide +kernel
    have hkey : (dogeioDecodeKey code s).1 = 0 := by
      unfold dogeioDecodeKey
      split_ifs <;> simp_all [isModifier]
    rw [hkey, hnone.1, hnone.2, ite_self]
  · unfold dogeioDecodeKey
    split_ifs <;> simp_all [isModifier]

/-- With no modifier behind a prefix, the prefix is on only for the next code. -/
theorem escaped_iff (hapart : ∀ code, [0xE0, code] <:+: codes → isModifier code = false) :
    (decoded codes).escaped = true ↔ codes.getLast? = some 0xE0 := by
  rw [decoded_escaped]
  induction codes using List.reverseRecOn with
  | nil => rfl
  | append_singleton codes code ih =>
    rw [getLast?_concat, lastOther, reverse_append, reverse_singleton, singleton_append, dropWhile_cons]
    split_ifs with hmodifier
    · have hlast := ih fun m hm => hapart m (hm.trans (prefix_append ..).isInfix)
      refine ⟨fun h => ?_, by rintro ⟨rfl⟩; contradiction⟩
      obtain ⟨front, rfl⟩ := getLast?_eq_some_iff.mp (hlast.mp h)
      have hbehind := hapart code ⟨front, [], by simp⟩
      rw [hmodifier] at hbehind
      contradiction
    · rfl

/-- Every code behind every part of a stream gives its key as an extended code if 0xE0 stands right
before it, and as an ordinary one otherwise, exactly if no modifier stands right behind a 0xE0. -/
theorem extended_iff_preceded (codes : List UInt8) :
    (∀ front code, front <+: codes → (dogeioDecodeKey code (decoded front)).1 =
      if front.getLast? = some 0xE0 then extendedKey code
      else mappedKey (decoded front).shift (decoded front).ctrl code) ↔
      ∀ code, [0xE0, code] <:+: codes → isModifier code = false := by
  constructor
  · rintro hkeys code ⟨front, rest, rfl⟩
    by_contra hmodifier
    rw [Bool.not_eq_false] at hmodifier
    -- the letter A behind the modifier has lost its key
    have hkey := hkeys (front ++ [0xE0, code]) 0x1E (prefix_append ..)
    have hescaped : (decoded (front ++ [0xE0, code])).escaped = true := by
      rw [decoded_escaped, lastOther, reverse_append]
      change (dropWhile isModifier (code :: 0xE0 :: front.reverse)).head? = _
      rw [dropWhile_cons_of_pos hmodifier, dropWhile_cons_of_neg (by decide)]
      rfl
    have hlast : (front ++ [0xE0, code]).getLast? ≠ some 0xE0 := by
      rw [getLast?_append]
      rintro ⟨rfl⟩
      contradiction
    rw [dogeioDecodeKey_fst, if_pos hescaped, if_neg hlast] at hkey
    generalize (decoded (front ++ [0xE0, code])).shift = shift at hkey
    generalize (decoded (front ++ [0xE0, code])).ctrl = ctrl at hkey
    revert shift ctrl
    decide
  · intro hapart front code hfront
    have hescaped := escaped_iff fun m hm => hapart m (hm.trans hfront.isInfix)
    rw [dogeioDecodeKey_fst]
    simp only [hescaped]

/-- A shift key behind the prefix leaves it to the next letter. -/
theorem prefix_behind_shift :
    (decoded [0xE0, 0x2A]).escaped = true ∧ (dogeioDecodeKey 0x1E (decoded [0xE0, 0x2A])).1 = 0 ∧
      mappedKey true false 0x1E = 65 := by
  decide +kernel

/-! ## The queue -/

/-- The ring of scancodes, with what the interrupt and the decoder know of the modifiers. -/
structure Keyboard where
  scancodes : UInt8 → UInt8
  head : UInt8
  tail : UInt8
  irqCtrl : Bool
  keys : KeyState

/-- `dogeio_keyboard_irq`, with the scancode if it is put into the ring. -/
def dogeioKeyboardIrq (scancode : UInt8) (k : Keyboard) : List UInt8 × Keyboard :=
  if scancode = 0x0F ∧ k.irqCtrl then ([], k)
  else
    let irqCtrl := if scancode = 0x1D then true else if scancode = 0x9D then false else k.irqCtrl
    if k.head + 1 ≠ k.tail then
      ([scancode], ⟨update k.scancodes k.head scancode, k.head + 1, k.tail, irqCtrl, k.keys⟩)
    else ([], { k with irqCtrl := irqCtrl })

/-- The loop of `dogeio_get_key_delay`, with the scancodes that it takes. -/
def getKeyLoop : ℕ → Keyboard → List UInt8 × ℕ × Keyboard
  | 0, k => ([], 0, k)
  | loops + 1, k =>
    if k.tail ≠ k.head then
      let scancode := k.scancodes k.tail
      let (key, keys) := dogeioDecodeKey scancode k.keys
      let k := { k with tail := k.tail + 1, keys := keys }
      if key ≠ 0 then ([scancode], key, k)
      else
        let (taken, result) := getKeyLoop loops k
        (scancode :: taken, result)
    else ([], 0, k)

/-- What happens to the keyboard. A round of the loop of `dogeio_get_key` is a read of one. -/
inductive KeyEvent
  | irq (scancode : UInt8)
  | read (shown : Bool) (loops : ℕ)

/-- The keyboard with the scancodes accepted and consumed so far. -/
structure KeyRun where
  keyboard : Keyboard
  accepted : List UInt8
  consumed : List UInt8

/-- A run with one more event. Only readers in the workspace that is shown read. -/
def KeyRun.step (r : KeyRun) : KeyEvent → KeyRun
  | .irq scancode =>
    let (accepted, k) := dogeioKeyboardIrq scancode r.keyboard
    ⟨k, r.accepted ++ accepted, r.consumed⟩
  | .read true loops =>
    let (taken, _, k) := getKeyLoop loops r.keyboard
    ⟨k, r.accepted, r.consumed ++ taken⟩
  | .read false _ => r

/-- Events from the start of the kernel on. -/
def KeyRun.after (events : List KeyEvent) : KeyRun :=
  events.foldl KeyRun.step ⟨⟨fun _ => 0, 0, 0, false, ⟨false, false, false⟩⟩, [], []⟩

/-- What waits in a ring between its counters. -/
def waiting (ring : UInt8 → UInt8) (head tail : UInt8) : List UInt8 :=
  (range (head - tail).toNat).map fun i => ring (tail + UInt8.ofNat i)

/-- The scancodes that wait. -/
def Keyboard.pending (k : Keyboard) : List UInt8 := waiting k.scancodes k.head k.tail

theorem toNat_sub_succ {head tail : UInt8} (h : tail ≠ head) :
    (head - tail).toNat = (head - (tail + 1)).toNat + 1 := by
  have hhead := head.toNat_lt
  have htail := tail.toNat_lt
  rw [ne_eq, ← UInt8.toNat_inj] at h
  simp only [UInt8.toNat_sub, UInt8.toNat_add, UInt8.reduceToNat]
  omega

theorem waiting_push {ring : UInt8 → UInt8} {head tail : UInt8} (c : UInt8) (h : head + 1 ≠ tail) :
    waiting (update ring head c) (head + 1) tail = waiting ring head tail ++ [c] := by
  have hcount : head + 1 - (tail + 1) = head - tail := by grind
  have hend : tail + UInt8.ofNat (head - tail).toNat = head := by
    rw [UInt8.ofNat_toNat, UInt8.add_comm, UInt8.sub_add_cancel]
  rw [waiting, toNat_sub_succ h.symm, hcount, range_succ, map_append, map_singleton, hend, update_self]
  congr 1
  apply map_congr_left
  intro i hi
  apply update_of_ne
  intro hplace
  rw [mem_range, ← hplace, UInt8.add_comm, UInt8.add_sub_cancel, UInt8.toNat_ofNat'] at hi
  omega

theorem waiting_pop {ring : UInt8 → UInt8} {head tail : UInt8} (h : tail ≠ head) :
    waiting ring head tail = ring tail :: waiting ring head (tail + 1) := by
  rw [waiting, toNat_sub_succ h, range_succ_eq_map, map_cons, map_map, waiting]
  congr 1
  · exact congrArg ring tail.add_zero
  · apply map_congr_left
    intro i _
    simp [UInt8.add_assoc, UInt8.add_comm 1]

/-- A scancode joins the end of the queue unless the workspace is switched or 255 wait. -/
theorem pending_irq (scancode : UInt8) (k : Keyboard) :
    (dogeioKeyboardIrq scancode k).2.pending = k.pending ++ (dogeioKeyboardIrq scancode k).1 ∧
      ((dogeioKeyboardIrq scancode k).1 = [] → scancode = 0x0F ∧ k.irqCtrl = true ∨ k.pending.length = 255) := by
  unfold dogeioKeyboardIrq
  by_cases hswitch : scancode = 0x0F ∧ k.irqCtrl
  · rw [if_pos hswitch]
    exact ⟨(append_nil _).symm, fun _ => Or.inl hswitch⟩
  rw [if_neg hswitch]
  by_cases hroom : k.head + 1 ≠ k.tail
  · simp only [if_pos hroom]
    exact ⟨waiting_push scancode hroom, fun h => absurd h (cons_ne_nil _ _)⟩
  · simp only [if_neg hroom]
    refine ⟨(append_nil _).symm, fun _ => Or.inr ?_⟩
    have hfull : k.head - (k.head + 1) = 255 := by grind
    rw [Keyboard.pending, waiting, length_map, length_range, ← not_not.mp hroom, hfull]
    rfl

/-- Readers take from the front of the queue. -/
theorem pending_getKeyLoop (loops : ℕ) (k : Keyboard) :
    k.pending = (getKeyLoop loops k).1 ++ (getKeyLoop loops k).2.2.pending := by
  induction loops generalizing k with
  | zero => rfl
  | succ loops ih =>
    rw [getKeyLoop]
    by_cases hempty : k.tail ≠ k.head
    · simp only [if_pos hempty]
      rw [Keyboard.pending, waiting_pop hempty]
      split_ifs
      · rfl
      · exact congrArg (cons _) (ih ⟨k.scancodes, k.head, k.tail + 1, k.irqCtrl, _⟩)
    · rw [if_neg hempty]
      rfl

/-- Over every interleaving, what was consumed and what waits is what was accepted, in order, and a
scancode is refused only to switch the workspace or while 255 wait. -/
theorem keyboard_queue (events : List KeyEvent) :
    (KeyRun.after events).accepted = (KeyRun.after events).consumed ++ (KeyRun.after events).keyboard.pending ∧
      ∀ scancode, (dogeioKeyboardIrq scancode (KeyRun.after events).keyboard).1 = [] →
        scancode = 0x0F ∧ (KeyRun.after events).keyboard.irqCtrl = true ∨
          (KeyRun.after events).keyboard.pending.length = 255 := by
  refine ⟨?_, fun scancode => (pending_irq scancode _).2⟩
  induction events using List.reverseRecOn with
  | nil => rfl
  | append_singleton events event ih =>
    have hstep : KeyRun.after (events ++ [event]) = (KeyRun.after events).step event := by
      rw [KeyRun.after, foldl_append]
      rfl
    rw [hstep]
    match event with
    | .irq scancode =>
      simp only [KeyRun.step]
      rw [(pending_irq scancode _).1, ih, append_assoc]
    | .read true loops =>
      simp only [KeyRun.step]
      rw [append_assoc, ← pending_getKeyLoop, ih]
    | .read false loops => exact ih

/-!
## The mouse

Every third byte of the PS/2 mouse adds to a movement that the next read takes. The interrupt takes the
eight low bits of a movement of nine for a signed number, and reports the packet's buttons alone.
-/

/-- The variables of the PS/2 mouse, and the buttons held on the serial one. -/
structure Mouse where
  packet : ℕ → UInt8
  index : ℕ
  deltaX : ℤ
  deltaY : ℤ
  buttons : UInt8
  serialButtons : UInt8

/-- A sum in an `int32_t`. -/
def int32 (n : ℤ) : ℤ := n.bmod (2 ^ 32)

/-- `dogeio_mouse_irq`. -/
def dogeioMouseIrq (byte : UInt8) (m : Mouse) : Mouse :=
  if m.index = 0 ∧ byte &&& 0x08 = 0 then m
  else
    let packet := update m.packet m.index byte
    if m.index + 1 < 3 then { m with packet := packet, index := m.index + 1 }
    else if packet 0 &&& 0xC0 ≠ 0 then { m with packet := packet, index := 0 }
    else
      { m with
        packet := packet
        index := 0
        deltaX := int32 (m.deltaX + (packet 1).toInt8.toInt)
        deltaY := int32 (m.deltaY - (packet 2).toInt8.toInt)
        buttons := packet 0 &&& 0x07 }

/-- `dogeio_mouse_read`. -/
def dogeioMouseRead (m : Mouse) : (ℤ × ℤ × UInt8) × Mouse :=
  ((m.deltaX, m.deltaY, m.buttons), { m with deltaX := 0, deltaY := 0 })

/-- A packet in sync and without overflow. -/
structure Packet where
  flags : UInt8
  x : UInt8
  y : UInt8
  sync : flags &&& 0x08 ≠ 0
  noOverflow : flags &&& 0xC0 = 0

/-- A movement of nine bits in two's complement, with the sign in the flags. -/
def movement (flags sign bits : UInt8) : ℤ := if flags &&& sign ≠ 0 then bits.toNat - 256 else bits.toNat

def Packet.moveX (p : Packet) : ℤ := movement p.flags 0x10 p.x

def Packet.moveY (p : Packet) : ℤ := movement p.flags 0x20 p.y

/-- The signs in the flags are the top bits of the movements. -/
def Packet.Small (p : Packet) : Prop :=
  (p.flags &&& 0x10 ≠ 0 ↔ 0x80 ≤ p.x) ∧ (p.flags &&& 0x20 ≠ 0 ↔ 0x80 ≤ p.y)

/-- The mouse behind packets. -/
def Mouse.take (m : Mouse) (packets : List Packet) : Mouse :=
  (packets.flatMap fun p => [p.flags, p.x, p.y]).foldl (fun m byte => dogeioMouseIrq byte m) m

variable {m : Mouse} {packets : List Packet} {last : Packet}

theorem int32_add (a b : ℤ) : int32 (int32 a + b) = int32 (a + b) := Int.bmod_add_bmod

/-- A movement that fits eight bits is the signed byte. -/
theorem movement_eq {flags sign bits : UInt8} (h : flags &&& sign ≠ 0 ↔ 0x80 ≤ bits) :
    movement flags sign bits = bits.toInt8.toInt := by
  have hvalue : bits.toInt8.toInt =
      if 2 * bits.toNat < 2 ^ 8 then (bits.toNat : ℤ) else bits.toNat - (2 ^ 8 : ℕ) :=
    BitVec.toInt_eq_toNat_cond bits.toBitVec
  have htop : 0x80 ≤ bits ↔ 128 ≤ bits.toNat := UInt8.le_iff_toNat_le
  rw [hvalue, movement, if_congr (h.trans htop) rfl rfl]
  split_ifs <;> omega

/-- The three bytes of a packet. -/
theorem take_concat (hsync : (m.take packets).index = 0) (hsmall : last.Small) :
    ∃ packet, m.take (packets ++ [last]) = { m.take packets with
      packet := packet
      index := 0
      deltaX := int32 ((m.take packets).deltaX + last.moveX)
      deltaY := int32 ((m.take packets).deltaY - last.moveY)
      buttons := last.flags &&& 0x07 } := by
  refine ⟨update (update (update (m.take packets).packet 0 last.flags) 1 last.x) 2 last.y, ?_⟩
  rw [Packet.moveX, Packet.moveY, movement_eq hsmall.1, movement_eq hsmall.2]
  have hbehind : m.take (packets ++ [last]) = (m.take packets).take [last] := by
    rw [Mouse.take, flatMap_append, foldl_append]
    rfl
  rw [hbehind]
  generalize m.take packets = n at hsync ⊢
  simp [Mouse.take, dogeioMouseIrq, hsync, last.sync, last.noOverflow]

/-- From a read on, the movements of the packets add up. -/
theorem take_packets (hsync : m.index = 0) (hx : m.deltaX = 0) (hy : m.deltaY = 0)
    (hsmall : ∀ p ∈ packets, p.Small) :
    (m.take packets).index = 0 ∧ (m.take packets).deltaX = int32 (packets.map Packet.moveX).sum ∧
      (m.take packets).deltaY = int32 (-(packets.map Packet.moveY).sum) ∧
      ∀ last ∈ packets.getLast?, (m.take packets).buttons = last.flags &&& 0x07 := by
  induction packets using List.reverseRecOn with
  | nil => exact ⟨hsync, hx, hy, by simp⟩
  | append_singleton packets last ih =>
    obtain ⟨hindex, hx, hy, -⟩ := ih fun p hp => hsmall p (mem_append_left _ hp)
    obtain ⟨packet, htake⟩ := take_concat hindex (hsmall last mem_concat_self)
    rw [htake, hx, hy, sub_eq_add_neg, int32_add, int32_add]
    simp [add_comm]

/-- Between two reads the movements add up, and the buttons are those of the last packet, if every movement
fits eight bits, the sums fit an `int32_t` and no button of the serial mouse is held. -/
theorem mouse_read_sums (hsync : m.index = 0) (hlast : packets.getLast? = some last)
    (hsmall : ∀ p ∈ packets, p.Small) (hserial : m.serialButtons = 0)
    (hx : int32 (packets.map Packet.moveX).sum = (packets.map Packet.moveX).sum)
    (hy : int32 (-(packets.map Packet.moveY).sum) = -(packets.map Packet.moveY).sum) :
    (dogeioMouseRead ((dogeioMouseRead m).2.take packets)).1 =
      ((packets.map Packet.moveX).sum, -(packets.map Packet.moveY).sum,
        last.flags &&& 0x07 ||| m.serialButtons) := by
  obtain ⟨-, hdx, hdy, hbuttons⟩ := @take_packets (dogeioMouseRead m).2 packets hsync rfl rfl hsmall
  rw [dogeioMouseRead, hdx, hdy, hbuttons last hlast, hx, hy, hserial, UInt8.or_zero]

def wideStep : Packet := ⟨0x08, 0x80, 0, by decide, by decide⟩

/-- A step of 128 to the right is reported to the left, and a button held on the serial mouse is lost. -/
theorem wide_step_reversed : wideStep.moveX = 128 ∧
    (dogeioMouseRead (Mouse.take ⟨fun _ => 0, 0, 0, 0, 1, 1⟩ [wideStep])).1 = (-128, 0, 0) := by
  decide

/-- A step back and a longer one forth, with another button each. -/
def twoSteps : List Packet := [⟨0x19, 0xFF, 2, by decide, by decide⟩, ⟨0x0A, 5, 3, by decide, by decide⟩]

theorem mouse_read_sums_two :
    (dogeioMouseRead ((dogeioMouseRead ⟨fun _ => 0, 0, 5, 5, 0, 0⟩).2.take twoSteps)).1 = (4, -5, 2) := by
  have hsmall : ∀ p ∈ twoSteps, p.Small := by
    unfold Packet.Small
    decide
  exact @mouse_read_sums ⟨fun _ => 0, 0, 5, 5, 0, 0⟩ twoSteps _ rfl rfl hsmall rfl (by decide) (by decide)

end Windoge.Console
