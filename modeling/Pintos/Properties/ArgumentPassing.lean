import Mathlib.Data.List.Induction
import Pintos.Userprog.Arguments

/-!
# Argument passing

* `words`, `words_token` — the maximal runs of characters that are no spaces
* `parseArgs_words` — the loop of `process_exec` finds them, each as a string of its own
* `argumentStack_pushes` — `argument_stack` pushes the strings, the padding, the pointers and the return address
* `processExec_builds_stack` — **the stack is the documented one**
-/

namespace Pintos

open Function LittleEndian ByteMemory

/-! ## Words -/

/-- The maximal runs of characters that are no spaces. -/
def words (line : List Byte) : List (List Byte) := (line.splitOnP (· == 0x20)).filter (· ≠ [])

section

variable {line rest tok sp : List Byte}

theorem words_space (rest : List Byte) : words (0x20 :: rest) = words rest := by
  rw [words, List.splitOnP_cons_eq_if_modifyHead, if_pos (by decide), List.filter_cons_of_neg (by simp)]
  rfl

theorem words_spaces (h : ∀ b ∈ sp, b = 0x20) (rest : List Byte) : words (sp ++ rest) = words rest := by
  induction sp with
  | nil => rfl
  | cons b sp ih =>
    rw [List.forall_mem_cons] at h
    rw [h.1, List.cons_append, words_space, ih h.2]

/-- A word at the end of the line. -/
theorem words_last (h : ∀ b ∈ tok, b ≠ 0x20) (hne : tok ≠ []) : words tok = [tok] := by
  rw [words, List.splitOnP_eq_singleton (by simpa using h)]
  simp [hne]

/-- A word, and a space behind it. -/
theorem words_token (h : ∀ b ∈ tok, b ≠ 0x20) (hne : tok ≠ []) (rest : List Byte) :
    words (tok ++ 0x20 :: rest) = tok :: words rest := by
  rw [words, List.splitOnP_append_cons_of_forall_mem (by simpa using h) 0x20 (by decide)]
  simp [hne, words]

/-- A line is spaces, or spaces and a word that ends the line or has a space behind it. -/
theorem line_cases (line : List Byte) :
    (∀ b ∈ line, b = 0x20) ∨ ∃ sp tok, (∀ b ∈ sp, b = 0x20) ∧ (∀ b ∈ tok, b ≠ 0x20) ∧ tok ≠ [] ∧
      (line = sp ++ tok ∨ ∃ rest, line = sp ++ (tok ++ 0x20 :: rest)) := by
  induction line with
  | nil => exact .inl nofun
  | cons b line ih =>
    by_cases hb : b = 0x20
    · subst hb
      rcases ih with h | ⟨sp, tok, hsp, htok, hne, h⟩
      · exact .inl (List.forall_mem_cons.mpr ⟨rfl, h⟩)
      · refine .inr ⟨0x20 :: sp, tok, List.forall_mem_cons.mpr ⟨rfl, hsp⟩, htok, hne, ?_⟩
        rcases h with rfl | ⟨rest, rfl⟩
        · exact .inl rfl
        · exact .inr ⟨rest, rfl⟩
    · rcases ih with h | ⟨sp, tok, hsp, htok, hne, h⟩
      · cases line with
        | nil => exact .inr ⟨[], [b], nofun, by simpa using hb, nofun, .inl rfl⟩
        | cons c line =>
          rw [List.forall_mem_cons] at h
          exact .inr ⟨[], [b], nofun, by simpa using hb, nofun, .inr ⟨line, by rw [h.1]; rfl⟩⟩
      · cases sp with
        | nil =>
          refine .inr ⟨[], b :: tok, nofun, List.forall_mem_cons.mpr ⟨hb, htok⟩, nofun, ?_⟩
          rcases h with rfl | ⟨rest, rfl⟩
          · exact .inl rfl
          · exact .inr ⟨rest, rfl⟩
        | cons c sp =>
          -- the word is `b` alone
          rw [List.forall_mem_cons] at hsp
          refine .inr ⟨[], [b], nofun, by simpa using hb, nofun, .inr ?_⟩
          rcases h with rfl | ⟨rest, rfl⟩
          · exact ⟨sp ++ tok, by rw [hsp.1]; rfl⟩
          · exact ⟨sp ++ (tok ++ 0x20 :: rest), by rw [hsp.1]; rfl⟩

end

/-! ## `strtok_r` -/

section

variable {m m' : Memory} {fuel n s savePtr : Nat} {p : Option Nat} {sp tok tail rest line : List Byte} {b : Byte}
  {parse : List Nat}

theorem strchr_space (c : Byte) : strchr [0x20] c = true ↔ c = 0x20 ∨ c = 0 := by
  unfold strchr strchr
  split
  · next h => simp [← h]
  · next h => rw [decide_eq_true_eq, or_iff_right (Ne.symm h)]

theorem skipDelimiters_spaces (hsp : ∀ b ∈ sp, b = 0x20) (h : Holds m s (sp ++ b :: tail)) (hb : b ≠ 0x20)
    (hfuel : sp.length < fuel) : skipDelimiters m [0x20] fuel s = some (s + sp.length) := by
  induction sp generalizing s fuel with
  | nil =>
    obtain ⟨fuel, rfl⟩ := Nat.exists_eq_succ_of_ne_zero (n := fuel) (by omega)
    have hms : m s = b := (holds_cons.mp h).1
    unfold skipDelimiters
    split
    · next hfound =>
      rw [strchr_space, hms] at hfound
      rw [hms, if_pos (hfound.resolve_left hb)]
      rfl
    · rfl
  | cons c sp ih =>
    rw [List.length_cons] at hfuel ⊢
    obtain ⟨fuel, rfl⟩ := Nat.exists_eq_succ_of_ne_zero (n := fuel) (by omega)
    rw [List.forall_mem_cons] at hsp
    obtain ⟨hms, h⟩ := holds_cons.mp h
    unfold skipDelimiters
    rw [hms, hsp.1, if_pos (by decide), if_neg (by decide), ih hsp.2 h (by omega), Nat.add_comm sp.length,
      ← Nat.add_assoc]

theorem skipToken_token (htok : ∀ b ∈ tok, b ≠ 0x20) (hzero : ∀ b ∈ tok, b ≠ 0) (h : Holds m s (tok ++ b :: tail))
    (hb : b = 0x20 ∨ b = 0) (hfuel : tok.length < fuel) : skipToken m [0x20] fuel s = some (s + tok.length) := by
  induction tok generalizing s fuel with
  | nil =>
    obtain ⟨fuel, rfl⟩ := Nat.exists_eq_succ_of_ne_zero (n := fuel) (by omega)
    have hms : m s = b := (holds_cons.mp h).1
    unfold skipToken
    rw [if_pos (by rw [strchr_space, hms]; exact hb)]
    rfl
  | cons c tok ih =>
    rw [List.length_cons] at hfuel ⊢
    obtain ⟨fuel, rfl⟩ := Nat.exists_eq_succ_of_ne_zero (n := fuel) (by omega)
    rw [List.forall_mem_cons] at htok hzero
    obtain ⟨hms, h⟩ := holds_cons.mp h
    unfold skipToken
    rw [if_neg (by rw [strchr_space, hms, not_or]; exact ⟨htok.1, hzero.1⟩), ih htok.2 hzero.2 h (by omega),
      Nat.add_comm tok.length, ← Nat.add_assoc]

/-- Nothing but spaces is left. -/
theorem strtokR_none (hp : p.getD savePtr = s) (hsp : ∀ b ∈ sp, b = 0x20) (h : Holds m s (sp ++ [0]))
    (hfuel : sp.length < fuel) : strtokR fuel m p [0x20] savePtr = some (none, s + sp.length, m) := by
  have hend : m (s + sp.length) = 0 := (holds_cons.mp (holds_append.mp h).2).1
  rw [strtokR, hp, skipDelimiters_spaces hsp h (by decide) hfuel]
  exact if_pos hend

/-- A token, and the character behind it. -/
theorem strtokR_some (hp : p.getD savePtr = s) (hsp : ∀ b ∈ sp, b = 0x20) (htok : ∀ b ∈ tok, b ≠ 0x20)
    (hzero : ∀ b ∈ tok, b ≠ 0) (hne : tok ≠ []) (h : Holds m s (sp ++ (tok ++ b :: tail))) (hb : b = 0x20 ∨ b = 0)
    (hfuel : sp.length + tok.length < fuel) :
    strtokR fuel m p [0x20] savePtr = if b = 0 then some (some (s + sp.length), s + sp.length + tok.length, m)
      else some (some (s + sp.length), s + sp.length + tok.length + 1, update m (s + sp.length + tok.length) 0) := by
  obtain ⟨c, tok', rfl⟩ := List.exists_cons_of_ne_nil hne
  have hrest := (holds_append.mp h).2
  have hc : m (s + sp.length) = c := (holds_cons.mp hrest).1
  have hend : m (s + sp.length + (c :: tok').length) = b := (holds_cons.mp (holds_append.mp hrest).2).1
  have hc0 : c ≠ 0 := hzero c List.mem_cons_self
  have hskip : skipDelimiters m [0x20] fuel s = some (s + sp.length) :=
    skipDelimiters_spaces hsp h (htok c List.mem_cons_self) (by omega)
  have htoken := skipToken_token htok hzero hrest hb (by omega : (c :: tok').length < fuel)
  rw [strtokR, hp, hskip]
  show (if m (s + sp.length) = 0 then _ else _) = _
  rw [if_neg (by rw [hc]; exact hc0), htoken]
  show (if m (s + sp.length + (c :: tok').length) ≠ 0 then _ else _) = _
  rw [hend]
  by_cases hb0 : b = 0
  · rw [if_neg (by simpa using hb0), if_pos hb0]
  · rw [if_pos hb0, if_neg hb0]

/-- What a call does with a line that has a word. -/
structure NextToken (m : Memory) (s : Nat) (line tok : List Byte) (q save : Nat) (m₁ : Memory) (rest : List Byte) :
    Prop where
  split : words line = tok :: words rest
  token : IsString m₁ q tok
  saved : IsString m₁ save rest
  first : s ≤ q
  last : q + tok.length < save ∨ q + tok.length = save ∧ rest = []
  total : save + rest.length = s + line.length
  others : ∀ a, a < s ∨ s + line.length ≤ a → m₁ a = m a

/-- A call of `strtok_r` finds the next word, or nothing. -/
theorem strtokR_line (hfuel : line.length < fuel) (hp : p.getD savePtr = s) (h : IsString m s line) :
    (words line = [] ∧ strtokR fuel m p [0x20] savePtr = some (none, s + line.length, m)) ∨
      ∃ tok q save m₁ rest, strtokR fuel m p [0x20] savePtr = some (some q, save, m₁) ∧
        NextToken m s line tok q save m₁ rest := by
  obtain ⟨hbytes, hzero⟩ := h
  rcases line_cases line with hsp | ⟨sp, tok, hsp, htok, hne, rfl | ⟨rest, rfl⟩⟩
  · have hwords := words_spaces hsp []
    rw [List.append_nil] at hwords
    exact .inl ⟨hwords, strtokR_none hp hsp hbytes hfuel⟩
  · -- the word ends the line
    rw [List.append_assoc] at hbytes
    rw [List.length_append] at hfuel
    have htokzero : ∀ b ∈ tok, b ≠ 0 := fun b hb => hzero b (List.mem_append_right _ hb)
    have hrest := (holds_append.mp hbytes).2
    refine .inr ⟨tok, _, _, m, [], (strtokR_some hp hsp htok htokzero hne hbytes (.inr rfl) hfuel).trans (if_pos rfl),
      ?_, ⟨hrest, htokzero⟩, ⟨(holds_append.mp hrest).2, nofun⟩, Nat.le_add_right _ _, .inr ⟨rfl, rfl⟩, ?_,
      fun _ _ => rfl⟩
    · rw [words_spaces hsp, words_last htok hne]
      rfl
    · rw [List.length_append, List.length_nil]
      omega
  · -- a space is behind the word, and is replaced by the zero
    rw [List.append_assoc, List.append_assoc, List.cons_append] at hbytes
    rw [List.length_append, List.length_append] at hfuel
    have htokzero : ∀ b ∈ tok, b ≠ 0 := fun b hb =>
      hzero b (List.mem_append_right _ (List.mem_append_left _ hb))
    have hrest := holds_append.mp (holds_append.mp hbytes).2
    refine .inr ⟨tok, s + sp.length, s + sp.length + tok.length + 1, update m (s + sp.length + tok.length) 0, rest,
      (strtokR_some hp hsp htok htokzero hne hbytes (.inl rfl) (by omega)).trans (if_neg (by decide)), ?_, ⟨?_, htokzero⟩,
      ⟨?_, ?_⟩, Nat.le_add_right _ _, .inl (Nat.lt_succ_self _), ?_, fun a ha => update_of_ne ?_ _ _⟩
    · rw [words_spaces hsp, words_token htok hne]
    · rw [holds_append, holds_cons, update_self]
      exact ⟨hrest.1.congr fun a _ hlt => update_of_ne (by omega) _ _, rfl, .nil _ _⟩
    · exact (holds_cons.mp hrest.2).2.congr fun a hle _ => update_of_ne (by omega) _ _
    · exact fun b hb => hzero b (List.mem_append_right _ (List.mem_append_right _ (List.mem_cons_of_mem _ hb)))
    · rw [List.length_append, List.length_append, List.length_cons]
      omega
    · rw [List.length_append, List.length_append, List.length_cons] at ha
      omega

/-- The strings are the words, in order, and lie in the range. -/
def Tokens (m : Memory) (lo hi : Nat) : List Nat → List (List Byte) → Prop :=
  List.Forall₂ fun q w => IsString m q w ∧ lo ≤ q ∧ q + w.length ≤ hi

/-- The loop of `process_exec` finds the words, each as a string of its own. -/
theorem parseArgs_words (hn : (words line).length < n) (hfuel : line.length < fuel) (hp : p.getD savePtr = s)
    (h : IsString m s line) (hsize : parse.length + (words line).length ≤ PARSE_SIZE) :
    ∃ ps m', parseArgs fuel n m p savePtr parse = some (parse ++ ps, m') ∧
      Tokens m' s (s + line.length) ps (words line) ∧ ∀ a, a < s ∨ s + line.length ≤ a → m' a = m a := by
  induction n generalizing line s m p savePtr parse with
  | zero => exact absurd hn (Nat.not_lt_zero _)
  | succ n ih =>
    rcases strtokR_line hfuel hp h with ⟨hwords, hstr⟩ | ⟨tok, q, save, m₁, rest, hstr, hnext⟩
    · refine ⟨[], m, ?_, ?_, fun _ _ => rfl⟩
      · rw [parseArgs, hstr, List.append_nil]
        rfl
      · rw [hwords]
        exact .nil
    · have hlast := hnext.last
      have htotal := hnext.total
      have hfirst := hnext.first
      rw [hnext.split, List.length_cons] at hn hsize
      have hsize' : (parse ++ [q]).length + (words rest).length ≤ PARSE_SIZE := by
        rw [List.length_append, List.length_singleton]
        omega
      have hsaved : (none : Option Nat).getD save = save := rfl
      obtain ⟨ps, m', hrun, htokens, hsame⟩ := ih (by omega) (by omega) hsaved hnext.saved hsize'
      have hrest : q + tok.length < save ∨ rest.length = 0 := hlast.imp_right fun h => by rw [h.2]; rfl
      refine ⟨q :: ps, m', ?_, ?_, fun a ha => ?_⟩
      · rw [parseArgs, hstr]
        show (if parse.length < PARSE_SIZE then parseArgs fuel n m₁ none save (parse ++ [q]) else none) = _
        rw [if_pos (by omega), hrun, List.append_assoc]
        rfl
      · rw [hnext.split]
        refine .cons ⟨hnext.token.congr fun a _ hle => hsame a (by omega), hfirst, by omega⟩ (htokens.imp ?_)
        exact fun _ _ h => ⟨h.1, by omega, by omega⟩
      · rw [hsame a (by omega), hnext.others a ha]

end

/-! ## `argument_stack` -/

/-- There is room for `n` bytes in the page below `rsp`. -/
structure Room (rsp n : Nat) : Prop where
  low : USER_STACK.toNat - PGSIZE + n ≤ rsp
  high : rsp ≤ USER_STACK.toNat

/-- The strings, one behind the other. -/
def stringBytes (args : List (List Byte)) : List Byte := args.flatMap (· ++ [0])

section

variable {m m' : Memory} {fuel src rsp n i : Nat} {xs : List Byte} {b : Byte} {parse : List Nat} {args : List (List Byte)}

theorem Room.mono {n' : Nat} (h : Room rsp n) (hle : n' ≤ n) : Room rsp n' := ⟨by have := h.low; omega, h.high⟩

theorem Room.sub {k : Nat} (h : Room rsp (k + n)) : Room (rsp - k) n := by
  have hlow := h.low
  have hhigh := h.high
  exact ⟨by omega, by omega⟩

theorem Room.pokeByte (h : Room rsp 1) (m : Memory) (b : Byte) :
    ∃ m', Pintos.pokeByte m (rsp - 1) b = some m' ∧ Pushes m rsp [b] m' (rsp - 1) := by
  have hlow := h.low
  have hhigh := h.high
  have hin : InStackPage (rsp - 1) := by
    have hpos : 0 < USER_STACK.toNat - PGSIZE := by decide
    unfold InStackPage
    omega
  exact ⟨_, if_pos hin, pushes_update m (by omega) b⟩

theorem Room.pokePtr (h : Room rsp 8) (m : Memory) (ptr : Nat) :
    ∃ m', Pintos.pokePtr m (rsp - 8) ptr = some m' ∧ Pushes m rsp (leBytes 8 ptr) m' (rsp - 8) := by
  have hlow := h.low
  have hhigh := h.high
  have hin : InStackPage (rsp - 8) ∧ InStackPage (rsp - 8 + 7) := by
    unfold InStackPage
    omega
  have hlen : (leBytes 8 ptr).length = 8 := length_leBytes 8 ptr
  have hpush : Pushes m rsp (leBytes 8 ptr) (putBytes m (rsp - (leBytes 8 ptr).length) (leBytes 8 ptr))
      (rsp - (leBytes 8 ptr).length) := pushes_putBytes m (by omega)
  rw [hlen] at hpush
  exact ⟨_, if_pos hin, hpush⟩

theorem strlen_string (h : IsString m src xs) (hfuel : xs.length < fuel) : strlen m fuel src = some xs.length := by
  obtain ⟨hbytes, hzero⟩ := h
  induction xs generalizing src fuel with
  | nil =>
    obtain ⟨fuel, rfl⟩ := Nat.exists_eq_succ_of_ne_zero (n := fuel) (by omega)
    rw [strlen, if_pos (holds_cons.mp hbytes).1]
    rfl
  | cons b xs ih =>
    rw [List.length_cons] at hfuel
    obtain ⟨fuel, rfl⟩ := Nat.exists_eq_succ_of_ne_zero (n := fuel) (by omega)
    rw [List.forall_mem_cons] at hzero
    rw [List.cons_append, holds_cons] at hbytes
    rw [strlen, if_neg (by rw [hbytes.1]; exact hzero.1), ih (by omega) hbytes.2 hzero.2]
    rfl

/-- The bytes are copied, the last one first. The source is above the stack. -/
theorem copyArg_pushes (h : Holds m src xs) (hroom : Room rsp xs.length) (hsrc : rsp ≤ src) :
    ∃ m', copyArg src xs.length m rsp = some (m', rsp - xs.length) ∧ Pushes m rsp xs m' (rsp - xs.length) := by
  induction xs using List.reverseRecOn generalizing m rsp with
  | nil => exact ⟨m, rfl, .refl m rsp⟩
  | append_singleton xs b ih =>
    rw [List.length_append, List.length_singleton] at hroom ⊢
    rw [holds_append, holds_cons] at h
    obtain ⟨m₁, hpoke, hpush⟩ := (hroom.mono (by omega)).pokeByte m b
    have hsame : Holds m₁ src xs := h.1.congr fun a hle _ => hpush.others a (.inr (by omega))
    obtain ⟨m', hrun, hpushes⟩ := ih hsame (Room.sub (by rwa [Nat.add_comm] at hroom)) (by omega)
    rw [Nat.sub_sub, Nat.add_comm 1] at hrun hpushes
    refine ⟨m', ?_, hpush.trans hpushes⟩
    rw [copyArg, h.2.1, hpoke]
    exact hrun

theorem padStack_pushes (hroom : Room rsp n) :
    ∃ m', padStack n m rsp = some (m', rsp - n) ∧ Pushes m rsp (List.replicate n 0) m' (rsp - n) := by
  induction n generalizing m rsp with
  | zero => exact ⟨m, rfl, .refl m rsp⟩
  | succ n ih =>
    obtain ⟨m₁, hpoke, hpush⟩ := (hroom.mono (by omega)).pokeByte m 0
    obtain ⟨m', hrun, hpushes⟩ := ih (m := m₁) (Room.sub (by rwa [Nat.add_comm] at hroom))
    rw [Nat.sub_sub, Nat.add_comm 1] at hrun hpushes
    refine ⟨m', ?_, ?_⟩
    · rw [padStack, hpoke]
      exact hrun
    · rw [List.replicate_succ']
      exact hpush.trans hpushes

/-- The pointers are pushed, the last one first. -/
theorem pushPtrs_pushes (hi : i ≤ parse.length) (hroom : Room rsp (8 * i)) :
    ∃ m', pushPtrs parse i m rsp = some (m', rsp - 8 * i) ∧
      Pushes m rsp ((parse.take i).flatMap (leBytes 8)) m' (rsp - 8 * i) := by
  induction i generalizing m rsp with
  | zero => exact ⟨m, rfl, .refl m rsp⟩
  | succ i ih =>
    obtain ⟨m₁, hpoke, hpush⟩ := (hroom.mono (by omega)).pokePtr m (parse.getD i 0)
    have hroom' : Room (rsp - 8) (8 * i) := Room.sub (by rwa [Nat.mul_succ, Nat.add_comm] at hroom)
    obtain ⟨m', hrun, hpushes⟩ := ih (m := m₁) (by omega) hroom'
    rw [Nat.sub_sub, Nat.add_comm 8, ← Nat.mul_succ] at hrun hpushes
    refine ⟨m', ?_, ?_⟩
    · rw [pushPtrs, hpoke]
      exact hrun
    · have htake : parse.take (i + 1) = parse.take i ++ [parse.getD i 0] := by
        rw [List.take_succ_eq_append_getElem (by omega), List.getD_eq_getElem _ _ (by omega)]
      rw [htake, List.flatMap_append, List.flatMap_singleton]
      exact hpush.trans hpushes

theorem stringBytes_take_succ (h : i < args.length) :
    stringBytes (args.take (i + 1)) = stringBytes (args.take i) ++ (args[i] ++ [0]) := by
  rw [List.take_succ_eq_append_getElem h, stringBytes, List.flatMap_append, List.flatMap_singleton]
  rfl

/-- The strings are copied, the last one first, and `parse` gets their new addresses. -/
theorem copyArgs_pushes (hi : i ≤ args.length) (hlen : parse.length = args.length)
    (hstr : ∀ (j : Nat) (h : j < args.length), j < i →
      IsString m (parse.getD j 0) args[j] ∧ USER_STACK.toNat ≤ parse.getD j 0)
    (hfuel : ∀ w ∈ args, w.length < fuel) (hroom : Room rsp (stringBytes (args.take i)).length) :
    ∃ m' parse', copyArgs fuel i m parse rsp = some (m', parse', rsp - (stringBytes (args.take i)).length) ∧
      Pushes m rsp (stringBytes (args.take i)) m' (rsp - (stringBytes (args.take i)).length) ∧
      parse'.length = args.length ∧ (∀ j < i, parse'.getD j 0 =
        rsp - (stringBytes (args.take i)).length + (stringBytes (args.take j)).length) ∧
      ∀ j, i ≤ j → parse'.getD j 0 = parse.getD j 0 := by
  induction i generalizing m parse rsp with
  | zero => exact ⟨m, parse, rfl, .refl m rsp, hlen, fun j hj => absurd hj (Nat.not_lt_zero j), fun _ _ => rfl⟩
  | succ i ih =>
    have hlt : i < args.length := hi
    obtain ⟨hword, habove⟩ := hstr i hlt (Nat.lt_succ_self i)
    rw [stringBytes_take_succ hlt] at hroom ⊢
    set src := parse.getD i 0 with hsrc
    set w := args[i] with hw
    set k := (stringBytes (args.take i)).length with hk
    have hwlen : (w ++ [0]).length = w.length + 1 := by rw [List.length_append, List.length_singleton]
    rw [List.length_append, hwlen] at hroom ⊢
    have hhigh := hroom.high
    obtain ⟨m₁, hcopy, hpush⟩ := copyArg_pushes hword.bytes (hroom.mono (by rw [hwlen]; omega)) (hhigh.trans habove)
    rw [hwlen] at hcopy hpush
    set rsp₁ := rsp - (w.length + 1) with hrsp₁
    set parse₁ := parse.set i rsp₁ with hparse₁
    have hget : ∀ j, parse₁.getD j 0 = if j = i then rsp₁ else parse.getD j 0 := by
      intro j
      rw [hparse₁, List.getD_eq_getElem?_getD, List.getElem?_set, List.getD_eq_getElem?_getD]
      by_cases hj : i = j
      · rw [if_pos hj, if_pos (by omega), if_pos hj.symm]
        rfl
      · rw [if_neg hj, if_neg (Ne.symm hj)]
    have hlen₁ : parse₁.length = args.length := by rw [hparse₁, List.length_set, hlen]
    have hstr₁ : ∀ (j : Nat) (h : j < args.length), j < i →
        IsString m₁ (parse₁.getD j 0) args[j] ∧ USER_STACK.toNat ≤ parse₁.getD j 0 := by
      intro j hj hji
      obtain ⟨hs, ha⟩ := hstr j hj (hji.trans (Nat.lt_succ_self i))
      rw [hget, if_neg hji.ne]
      exact ⟨hs.congr fun a hle _ => hpush.others a (.inr (by omega)), ha⟩
    have hroom₁ : Room rsp₁ k := Room.sub (by rwa [Nat.add_comm] at hroom)
    obtain ⟨m', parse', hrun, hpushes, hlen', hnew, hold⟩ := ih (by omega) hlen₁ hstr₁ hroom₁
    have hrsp : rsp₁ - k = rsp - (k + (w.length + 1)) := by omega
    rw [hrsp] at hrun hpushes hnew
    refine ⟨m', parse', ?_, hpush.trans hpushes, hlen', fun j hj => ?_, fun j hj => ?_⟩
    · rw [copyArgs, ← hsrc, strlen_string hword (hfuel w (List.getElem_mem hlt)), Option.bind_eq_bind, Option.bind_some,
        hcopy, Option.bind_eq_bind, Option.bind_some]
      exact hrun
    · rcases Nat.lt_succ_iff_lt_or_eq.mp hj with hj | rfl
      · exact hnew j hj
      · have hlow := hroom.low
        rw [hold j le_rfl, hget, if_pos rfl]
        omega
    · rw [hold j (by omega), hget, if_neg (by omega)]

/-- The padding below the strings. -/
def padding (args : List (List Byte)) : Nat := (USER_STACK.toNat - (stringBytes args).length) % 8

/-- The strings, the padding, the pointers and the return address fit in the page. -/
def FitsStack (args : List (List Byte)) : Prop :=
  (stringBytes args).length + padding args + 8 * (args.length + 2) ≤ PGSIZE

instance (args : List (List Byte)) : Decidable (FitsStack args) := inferInstanceAs (Decidable (_ ≤ _))

theorem padding_eq (hle : (stringBytes args).length ≤ USER_STACK.toNat) :
    ((toInt32 ((USER_STACK.toNat - (stringBytes args).length) % 2 ^ 32)).tmod 8).toNat = padding args := by
  have hu : USER_STACK.toNat = 0x47480000 := rfl
  have hint : toInt32 ((USER_STACK.toNat - (stringBytes args).length) % 2 ^ 32) =
      ((USER_STACK.toNat - (stringBytes args).length : Nat) : Int) := by
    unfold toInt32
    rw [hu] at hle ⊢
    split <;> omega
  rw [hint, Int.tmod_eq_emod_of_nonneg (Int.natCast_nonneg _), padding]
  omega

/-- `argument_stack` pushes the strings, the padding, the pointers and the return address. -/
theorem argumentStack_pushes (hlen : parse.length = args.length)
    (hstr : ∀ (j : Nat) (h : j < args.length), IsString m (parse.getD j 0) args[j] ∧ USER_STACK.toNat ≤ parse.getD j 0)
    (hfuel : ∀ w ∈ args, w.length < fuel) (hfits : FitsStack args) :
    ∃ m' parse' rsp', argumentStack fuel m parse USER_STACK.toNat = some (m', parse', rsp') ∧
      Pushes m USER_STACK.toNat (leBytes 8 0 ++ (parse'.flatMap (leBytes 8) ++
        (leBytes 8 0 ++ (List.replicate (padding args) 0 ++ stringBytes args)))) m' rsp' ∧
      parse'.length = args.length ∧ ∀ j < args.length, parse'.getD j 0 =
        USER_STACK.toNat - (stringBytes args).length + (stringBytes (args.take j)).length := by
  have hroom : Room USER_STACK.toNat PGSIZE := ⟨by decide, le_rfl⟩
  unfold FitsStack at hfits
  have hpage : PGSIZE ≤ USER_STACK.toNat := by decide
  have htake : args.take args.length = args := List.take_length
  set k := (stringBytes args).length with hk
  obtain ⟨m₁, parse', hcopy, hpush₁, hlen', hnew, -⟩ := copyArgs_pushes (m := m) le_rfl hlen
    (fun j h _ => hstr j h) hfuel (by rw [htake]; exact hroom.mono (by omega))
  rw [htake, ← hk] at hcopy hpush₁ hnew
  set rsp₁ := USER_STACK.toNat - k with hrsp₁
  have hroom₁ : Room rsp₁ (padding args + 8 * (args.length + 2)) := Room.sub (hroom.mono (by omega))
  obtain ⟨m₂, hpad, hpush₂⟩ := padStack_pushes (m := m₁) (hroom₁.mono (Nat.le_add_right _ _))
  have hroom₂ : Room (rsp₁ - padding args) (8 + 8 * args.length + 8) :=
    Room.sub (hroom₁.mono (by omega))
  set rsp₂ := rsp₁ - padding args with hrsp₂
  obtain ⟨m₃, hnull, hpush₃⟩ := (hroom₂.mono (by omega)).pokePtr m₂ 0
  have hroom₃ : Room (rsp₂ - 8) (8 * args.length + 8) := Room.sub (hroom₂.mono (by omega))
  obtain ⟨m₄, hptrs, hpush₄⟩ := pushPtrs_pushes (m := m₃) (le_refl parse'.length) (hroom₃.mono (by omega))
  rw [List.take_length] at hpush₄
  rw [hlen'] at hptrs hpush₄
  have hroom₄ : Room (rsp₂ - 8 - 8 * args.length) 8 := Room.sub hroom₃
  obtain ⟨m₅, hret, hpush₅⟩ := hroom₄.pokePtr m₄ 0
  refine ⟨m₅, parse', _, ?_, (((hpush₁.trans hpush₂).trans hpush₃).trans hpush₄).trans hpush₅, hlen', hnew⟩
  have hpadding := padding_eq (show (stringBytes args).length ≤ USER_STACK.toNat by omega)
  rw [← hk, ← hrsp₁] at hpadding
  rw [argumentStack, hlen, hcopy, Option.bind_eq_bind, Option.bind_some]
  dsimp only
  rw [hpadding, hpad, Option.bind_eq_bind, Option.bind_some]
  dsimp only
  rw [hnull, Option.bind_eq_bind, Option.bind_some, hlen', hptrs, Option.bind_some]
  dsimp only
  rw [hret]
  rfl

end

/-! ## The stack of a program -/

/-- The documented stack, where `m` was the memory before `argument_stack`. -/
structure InitialStack (m : Memory) (args : List (List Byte)) (m' : Memory) (regs : ExecRegs) : Prop where
  aligned : regs.rsp % 8 = 0
  returnAddress : loadLe m' regs.rsp 8 = 0
  argc : regs.rdi = args.length
  argv : regs.rsi = regs.rsp + 8
  strings : ∀ (i : Nat) (h : i < args.length), IsString m' (loadLe m' (regs.rsi + 8 * i) 8) args[i] ∧
    regs.rsi + 8 * (args.length + 1) ≤ loadLe m' (regs.rsi + 8 * i) 8 ∧
    loadLe m' (regs.rsi + 8 * i) 8 + args[i].length < USER_STACK.toNat
  sentinel : loadLe m' (regs.rsi + 8 * args.length) 8 = 0
  others : ∀ a, ¬ InStackPage a → m' a = m a

section

variable {m m' : Memory} {fuel lo hi rsp a i : Nat} {line cmd : List Byte} {parse : List Nat} {args : List (List Byte)}

theorem length_words_le (line : List Byte) : (words line).length ≤ line.length + 1 := by
  refine (List.length_filter_le _ _).trans ?_
  induction line with
  | nil => exact le_rfl
  | cons b line ih =>
    rw [List.splitOnP_cons_eq_if_modifyHead, List.length_cons]
    split
    · exact Nat.succ_le_succ ih
    · rw [List.length_modifyHead]
      exact ih.trans (Nat.le_succ _)

theorem Tokens.length_le (h : Tokens m lo (lo + i) parse args) {w : List Byte} (hw : w ∈ args) : w.length ≤ i := by
  obtain ⟨j, hj, rfl⟩ := List.mem_iff_getElem.mp hw
  have hget := h.get (h.length_eq ▸ hj) hj
  have hlow := hget.2.1
  have hhigh : _ + args[j].length ≤ _ := hget.2.2
  omega

/-- A string between the strings. -/
theorem isString_stringBytes (h : Holds m a (stringBytes args)) (hzero : ∀ w ∈ args, ∀ b ∈ w, b ≠ 0)
    (hi : i < args.length) : IsString m (a + (stringBytes (args.take i)).length) args[i] := by
  have hsplit : stringBytes args = stringBytes (args.take i) ++ ((args[i] ++ [0]) ++ stringBytes (args.drop (i + 1))) := by
    rw [← List.append_assoc, ← stringBytes_take_succ hi, stringBytes, stringBytes, stringBytes, ← List.flatMap_append,
      List.take_append_drop]
  rw [hsplit, holds_append, holds_append] at h
  exact ⟨h.2.1, hzero _ (List.getElem_mem hi)⟩

theorem length_stringBytes_take (hi : i < args.length) :
    (stringBytes (args.take i)).length + args[i].length + 1 ≤ (stringBytes args).length := by
  have hsub : (stringBytes (args.take (i + 1))).length ≤ (stringBytes args).length := by
    have hsplit : stringBytes args = stringBytes (args.take (i + 1)) ++ stringBytes (args.drop (i + 1)) := by
      rw [stringBytes, stringBytes, stringBytes, ← List.flatMap_append, List.take_append_drop]
    rw [hsplit, List.length_append]
    exact Nat.le_add_right _ _
  rw [stringBytes_take_succ hi, List.length_append, List.length_append, List.length_singleton] at hsub
  omega

/-- What was pushed is the documented stack. -/
theorem initialStack_of_pushes (hfits : FitsStack args) (hzero : ∀ w ∈ args, ∀ b ∈ w, b ≠ 0)
    (hpush : Pushes m USER_STACK.toNat (leBytes 8 0 ++ (parse.flatMap (leBytes 8) ++
      (leBytes 8 0 ++ (List.replicate (padding args) 0 ++ stringBytes args)))) m' rsp)
    (hlen : parse.length = args.length) (hget : ∀ j < args.length, parse.getD j 0 =
      USER_STACK.toNat - (stringBytes args).length + (stringBytes (args.take j)).length) :
    InitialStack m args m' ⟨rsp, args.length, rsp + 8⟩ := by
  have hu : USER_STACK.toNat = 0x47480000 := rfl
  have hpage : PGSIZE = 4096 := rfl
  have hptrs : (parse.flatMap (leBytes 8)).length = 8 * args.length := by
    rw [List.length_flatMap, ← hlen]
    simp [Nat.mul_comm]
  have htotal := hpush.total
  simp only [List.length_append, length_leBytes, List.length_replicate, hptrs] at htotal
  unfold FitsStack at hfits
  have hbytes := hpush.bytes
  rw [holds_append, holds_append, holds_append, holds_append, length_leBytes, List.length_replicate,
    hptrs] at hbytes
  obtain ⟨hret, hargv, hnull, -, hstrs⟩ := hbytes
  have hpadding : padding args = (USER_STACK.toNat - (stringBytes args).length) % 8 := rfl
  have hword : ∀ j < args.length, loadLe m' (rsp + 8 + 8 * j) 8 =
      USER_STACK.toNat - (stringBytes args).length + (stringBytes (args.take j)).length := by
    intro j hj
    rw [hargv.word ?_ (hlen ▸ hj), ← List.getD_eq_getElem _ 0 (hlen ▸ hj), hget j hj]
    intro w hw
    obtain ⟨k, hk, rfl⟩ := List.mem_iff_getElem.mp hw
    have hle := length_stringBytes_take (hlen ▸ hk : k < args.length)
    rw [← List.getD_eq_getElem _ 0 hk, hget k (hlen ▸ hk)]
    omega
  have hplace : rsp + 8 + 8 * args.length + 8 + padding args = USER_STACK.toNat - (stringBytes args).length := by omega
  rw [hplace] at hstrs
  refine ⟨?_, holds_of_loadLe hret, rfl, rfl, fun i hi => ?_, holds_of_loadLe hnull, fun a ha => hpush.others a ?_⟩
  · show rsp % 8 = 0
    omega
  · show IsString m' (loadLe m' (rsp + 8 + 8 * i) 8) _ ∧ rsp + 8 + 8 * (args.length + 1) ≤ _ ∧
      loadLe m' (rsp + 8 + 8 * i) 8 + _ < _
    have hle := length_stringBytes_take hi
    rw [hword i hi]
    exact ⟨isString_stringBytes hstrs hzero hi, by omega, by omega⟩
  · unfold InStackPage at ha
    omega

/-- The loop of `process_exec` finds the words of the command line, and `argument_stack` builds the documented stack. -/
theorem processExec_builds_stack {m : Memory} {fileName fuel : Nat} {cmd : List Byte} {load : Memory → Memory}
    (hcmd : IsString m fileName cmd) (hkernel : KERN_BASE.toNat ≤ fileName) (hcount : (words cmd).length ≤ PARSE_SIZE)
    (hfits : FitsStack (words cmd)) (hload : ∀ m a, fileName ≤ a → a ≤ fileName + cmd.length → load m a = m a)
    (hfuel : cmd.length + 1 < fuel) :
    ∃ parse m₁ m₂ regs, parseArgs fuel fuel m (some fileName) 0 [] = some (parse, m₁) ∧
      Tokens m₁ fileName (fileName + cmd.length) parse (words cmd) ∧
      processExecArgs fuel load m fileName = some (m₂, regs) ∧ InitialStack (load m₁) (words cmd) m₂ regs := by
  have hwords := length_words_le cmd
  obtain ⟨parse, m₁, hparse, htokens, -⟩ :
      ∃ ps m', parseArgs fuel fuel m (some fileName) 0 [] = some ([] ++ ps, m') ∧ _ :=
    parseArgs_words (by omega : (words cmd).length < fuel) (by omega : cmd.length < fuel) rfl hcmd
      (by rw [List.length_nil, Nat.zero_add]; exact hcount)
  rw [List.nil_append] at hparse
  have hlen : parse.length = (words cmd).length := htokens.length_eq
  have hbelow : USER_STACK.toNat ≤ fileName := Nat.le_trans (by decide) hkernel
  have hloaded : ∀ (j : Nat) (h : j < (words cmd).length),
      IsString (load m₁) (parse.getD j 0) (words cmd)[j] ∧ USER_STACK.toNat ≤ parse.getD j 0 := by
    intro j hj
    have hget := htokens.get (hlen ▸ hj) hj
    rw [List.getD_eq_getElem _ _ (hlen ▸ hj)]
    exact ⟨hget.1.congr fun a hle hle' => hload m₁ a (hget.2.1.trans hle) (hle'.trans hget.2.2), hbelow.trans hget.2.1⟩
  have hshort : ∀ w ∈ words cmd, w.length < fuel := fun w hw => (htokens.length_le hw).trans_lt (by omega)
  have hzero : ∀ w ∈ words cmd, ∀ b ∈ w, b ≠ 0 := by
    intro w hw
    obtain ⟨j, hj, rfl⟩ := List.mem_iff_getElem.mp hw
    exact (hloaded j hj).1.nonzero
  obtain ⟨m₂, parse', rsp, hstack, hpush, hlen', hget⟩ := argumentStack_pushes hlen hloaded hshort hfits
  refine ⟨parse, m₁, m₂, ⟨rsp, parse.length, rsp + 8⟩, hparse, htokens, ?_, ?_⟩
  · rw [processExecArgs, hparse, Option.bind_eq_bind, Option.bind_some]
    dsimp only
    rw [hstack]
    rfl
  · rw [hlen]
    exact initialStack_of_pushes hfits hzero hpush hlen' hget

/-- A program, two spaces and an argument. -/
def echoLine : List Byte := [0x65, 0x20, 0x20, 0x78]

theorem processExec_builds_stack_echo :
    ∃ parse m₁ m₂ regs, parseArgs 8 8 (putBytes (fun _ => 0) KERN_BASE.toNat (echoLine ++ [0]))
        (some KERN_BASE.toNat) 0 [] = some (parse, m₁) ∧
      Tokens m₁ KERN_BASE.toNat (KERN_BASE.toNat + 4) parse [[0x65], [0x78]] ∧
      processExecArgs 8 id (putBytes (fun _ => 0) KERN_BASE.toNat (echoLine ++ [0])) KERN_BASE.toNat = some (m₂, regs) ∧
      InitialStack m₁ [[0x65], [0x78]] m₂ regs :=
  processExec_builds_stack (show IsString _ _ echoLine from ⟨holds_putBytes _ _ _, by decide⟩) le_rfl (by decide) (by decide)
    (fun _ _ _ _ => rfl) (by decide)

end

end Pintos
