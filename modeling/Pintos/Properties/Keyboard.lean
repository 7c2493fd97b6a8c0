import Pintos.Devices.Kbd

/-!
# The keyboard

* `shift_keys_held` — the state variables say which keys are down
* `text_typed_iff` — the texts that can be typed
-/

namespace Pintos

open LittleEndian

/-! ## The shift keys -/

inductive ShiftKey where
  | leftShift
  | rightShift
  | leftAlt
  | rightAlt
  | leftCtrl
  | rightCtrl

namespace ShiftKey

def code : ShiftKey → Nat
  | leftShift => 0x2a
  | rightShift => 0x36
  | leftAlt => 0x38
  | rightAlt => 0xe038
  | leftCtrl => 0x1d
  | rightCtrl => 0xe01d

def stateVar : ShiftKey → ShiftState → Bool
  | leftShift => ShiftState.left_shift
  | rightShift => ShiftState.right_shift
  | leftAlt => ShiftState.left_alt
  | rightAlt => ShiftState.right_alt
  | leftCtrl => ShiftState.left_ctrl
  | rightCtrl => ShiftState.right_ctrl

end ShiftKey

/-- Whether a key is down after some scancodes. -/
def held (code : Nat) (down : Bool) : List Scancode → Bool
  | [] => down
  | k :: ks => held code (if k.code = code then !k.release else down) ks

/-- The number of times that a key is pressed. -/
def presses (code : Nat) (ks : List Scancode) : Nat := ks.countP fun k => decide (k.code = code) && !k.release

variable {s : ShiftState} {k : Scancode} {ks : List Scancode} {key : ShiftKey}

/-- No map has a shift key, or Caps Lock. -/
theorem keyChar_shiftKey (s : ShiftState) (key : ShiftKey) : s.keyChar key.code = none := by
  have hmaps : mapKey invariantKeymap key.code = none ∧ mapKey shiftedKeymap key.code = none ∧
      mapKey unshiftedKeymap key.code = none := by
    cases key <;> decide
  rw [ShiftState.keyChar, hmaps.1, hmaps.2.1, hmaps.2.2]
  exact ite_self _

/-- Each scancode of the table has its own state variable. -/
theorem stateVar_setKey (s : ShiftState) (key : ShiftKey) (code : Nat) (down : Bool) :
    key.stateVar (s.setKey code down) = if code = key.code then down else key.stateVar s := by
  unfold ShiftState.setKey
  cases key <;> repeat' split
  all_goals first
    | rfl
    | (next h hc => exact absurd hc (by subst h; decide))
    | simp_all [ShiftKey.code]

theorem code_ne_capsLock (key : ShiftKey) : key.code ≠ 0x3a := by
  cases key <;> decide

theorem stateVar_interrupt (s : ShiftState) (key : ShiftKey) (k : Scancode) :
    key.stateVar (keyboardInterrupt s k).1 = if k.code = key.code then !k.release else key.stateVar s := by
  unfold keyboardInterrupt
  split
  · next hcaps =>
    have hne : ¬ k.code = key.code := fun hc => code_ne_capsLock key (hc.symm.trans hcaps)
    rw [if_neg hne]
    split
    · rfl
    · cases key <;> rfl
  · split
    · next c hc =>
      have hne : ¬ k.code = key.code := by
        intro hk
        rw [hk, keyChar_shiftKey] at hc
        cases hc
      rw [if_neg hne]
      split <;> rfl
    · exact stateVar_setKey s key k.code _

theorem capsLock_setKey (s : ShiftState) (code : Nat) (down : Bool) : (s.setKey code down).caps_lock = s.caps_lock := by
  unfold ShiftState.setKey
  repeat' split
  all_goals rfl

theorem capsLock_interrupt (s : ShiftState) (k : Scancode) : (keyboardInterrupt s k).1.caps_lock =
    (s.caps_lock ^^ (decide (k.code = 0x3a) && !k.release)) := by
  unfold keyboardInterrupt
  split
  · next hcaps =>
    split
    · next hrel => simp [hrel]
    · next hrel => simp [hcaps, hrel]
  · next hcaps =>
    split
    · split <;> simp [hcaps]
    · rw [capsLock_setKey]
      simp [hcaps]

theorem keyboardRun_cons (s : ShiftState) (k : Scancode) (ks : List Scancode) : keyboardRun s (k :: ks) =
    ((keyboardRun (keyboardInterrupt s k).1 ks).1,
      (keyboardInterrupt s k).2.toList ++ (keyboardRun (keyboardInterrupt s k).1 ks).2) := rfl

/-- **The state variables say which keys are down**, and Caps Lock how often its key was pressed. -/
theorem shift_keys_held (s : ShiftState) (ks : List Scancode) :
    (∀ key : ShiftKey, key.stateVar (keyboardRun s ks).1 = held key.code (key.stateVar s) ks) ∧
      (keyboardRun s ks).1.caps_lock = (s.caps_lock ^^ decide (presses 0x3a ks % 2 = 1)) := by
  induction ks generalizing s with
  | nil => exact ⟨fun _ => rfl, (Bool.xor_false _).symm⟩
  | cons k ks ih =>
    obtain ⟨hkeys, hcaps⟩ := ih (keyboardInterrupt s k).1
    refine ⟨fun key => ?_, ?_⟩
    · rw [keyboardRun_cons, hkeys, held, stateVar_interrupt]
    · rw [keyboardRun_cons, hcaps, capsLock_interrupt, Bool.xor_assoc]
      congr 1
      rw [presses, presses, List.countP_cons]
      cases hk : decide (k.code = 0x3a) && !k.release with
      | false => simp
      | true =>
        rw [if_pos rfl]
        generalize List.countP _ ks = n
        rcases Nat.mod_two_eq_zero_or_one n with h | h
        · have h' : (n + 1) % 2 = 1 := by omega
          rw [h, h']
          rfl
        · have h' : (n + 1) % 2 = 0 := by omega
          rw [h, h']
          rfl

/-! ## Typing -/

/-- The keys with a character, and whether Shift has to be down. -/
def keyTable : List (Byte × Nat × Bool) :=
  let keys (maps : List Keymap) (change : Byte → Byte) (shift : Bool) : List (Byte × Nat × Bool) :=
    maps.flatMap fun k => k.chars.zipIdx.map fun c => (change c.1, k.firstScancode + c.2, shift)
  keys invariantKeymap tolower false ++ keys invariantKeymap id true ++ keys unshiftedKeymap id false ++
    keys shiftedKeymap id true

/-- The key of a character. -/
def findKey (c : Byte) : Nat × Bool := ((keyTable.find? fun k => k.1 = c).map (·.2)).getD (0, false)

/-- A key pressed, and let go after others. -/
def around (code : Nat) (on : Bool) (ks : List Scancode) : List Scancode :=
  if on then .plain (BitVec.ofNat 8 code) :: ks ++ [.plain (BitVec.ofNat 8 (code + 0x80))] else ks

/-- The keys for a byte: Alt for the high bit, Ctrl for a control character, and Shift. -/
def strokes (b : Byte) : List Scancode :=
  let low := b &&& 0x7f
  let key := findKey (if low < 0x20 then low + 0x40 else low)
  around 0x38 (b &&& 0x80 != 0) (around 0x1d (low < 0x20) (around 0x2a key.2 (around key.1 true [])))

/-- No key is down, and Caps Lock is off. -/
def ShiftState.released : ShiftState := ⟨false, false, false, false, false, false, false⟩

/-- `0x7f`, with or without the high bit. -/
def isDelete (b : Byte) : Bool := b &&& 0x7f = 0x7f

theorem strokes_spec : ∀ n < 256, isDelete (BitVec.ofNat 8 n) = false →
    keyboardRun .released (strokes (BitVec.ofNat 8 n)) = (.released, [BitVec.ofNat 8 n]) := by
  decide +kernel

/-- A byte is typed, and every key is let go. -/
theorem keyboardRun_strokes {b : Byte} (hb : isDelete b = false) :
    keyboardRun .released (strokes b) = (.released, [b]) := by
  have h := strokes_spec b.toNat b.isLt
  rw [BitVec.ofNat_toNat, BitVec.setWidth_eq] at h
  exact h hb

theorem keyboardRun_append (s : ShiftState) (ks ks' : List Scancode) :
    keyboardRun s (ks ++ ks') = ((keyboardRun (keyboardRun s ks).1 ks').1,
      (keyboardRun s ks).2 ++ (keyboardRun (keyboardRun s ks).1 ks').2) := by
  induction ks generalizing s with
  | nil => rfl
  | cons k ks ih =>
    rw [List.cons_append, keyboardRun_cons, keyboardRun_cons, ih, List.append_assoc]

theorem mapKey_mem {maps : List Keymap} {code : Nat} {c : Byte} (h : mapKey maps code = some c) :
    ∃ k ∈ maps, c ∈ k.chars := by
  induction maps with
  | nil => cases h
  | cons k maps ih =>
    rw [mapKey] at h
    split at h
    · exact ⟨k, List.mem_cons_self, List.mem_of_getElem? h⟩
    · obtain ⟨k', hk', hc⟩ := ih h
      exact ⟨k', List.mem_cons_of_mem k hk', hc⟩

theorem keyChar_lt (s : ShiftState) (code : Nat) {c : Byte} (h : s.keyChar code = some c) : c < 0x7f := by
  have hmaps : ∀ maps ∈ [invariantKeymap, shiftedKeymap, unshiftedKeymap], ∀ k ∈ maps, ∀ c ∈ k.chars, c < 0x7f := by
    decide
  have hmem : ∃ maps ∈ [invariantKeymap, shiftedKeymap, unshiftedKeymap], mapKey maps code = some c := by
    unfold ShiftState.keyChar at h
    split at h
    · next hc => exact ⟨_, by simp, hc.trans h⟩
    · split at h
      · exact ⟨_, by simp, h⟩
      · exact ⟨_, by simp, h⟩
  obtain ⟨maps, hm, hkey⟩ := hmem
  obtain ⟨k, hk, hc⟩ := mapKey_mem hkey
  exact hmaps maps hm k hk c hc

theorem finalChar_not_delete (shift alt ctrl caps_lock : Bool) {c : Byte} (h : c < 0x7f) :
    isDelete (finalChar shift alt ctrl caps_lock c) = false := by
  have hall : ∀ n < 127, ∀ shift alt ctrl caps_lock,
      isDelete (finalChar shift alt ctrl caps_lock (BitVec.ofNat 8 n)) = false := by
    decide +kernel
  have hc := hall c.toNat (BitVec.lt_def.mp h) shift alt ctrl caps_lock
  rw [BitVec.ofNat_toNat, BitVec.setWidth_eq] at hc
  exact hc

/-- No key gives the character for Delete. -/
theorem keyboardRun_not_delete (s : ShiftState) (ks : List Scancode) :
    ∀ b ∈ (keyboardRun s ks).2, isDelete b = false := by
  induction ks generalizing s with
  | nil => exact fun b hb => absurd hb List.not_mem_nil
  | cons k ks ih =>
    intro b hb
    rw [keyboardRun_cons, List.mem_append, Option.mem_toList] at hb
    rcases hb with hb | hb
    · unfold keyboardInterrupt at hb
      split at hb
      · split at hb <;> cases hb
      · split at hb
        · next c hc =>
          split at hb
          · cases hb
          · cases hb
            exact finalChar_not_delete _ _ _ _ (keyChar_lt s _ hc)
        · cases hb
    · exact ih _ b hb

/-- **What can be typed**: the texts without `0x7f`, and without it with the high bit. Their keys can be let go
at the end. -/
theorem text_typed_iff (text : List Byte) :
    (∃ ks, keyboardRun .released ks = (.released, text)) ↔ ∀ b ∈ text, isDelete b = false := by
  constructor
  · rintro ⟨ks, hks⟩
    have h := keyboardRun_not_delete .released ks
    rw [hks] at h
    exact h
  · intro h
    refine ⟨text.flatMap strokes, ?_⟩
    induction text with
    | nil => rfl
    | cons b text ih =>
      rw [List.flatMap_cons, keyboardRun_append, keyboardRun_strokes (h b List.mem_cons_self),
        ih fun c hc => h c (List.mem_cons_of_mem b hc)]
      rfl

end Pintos
