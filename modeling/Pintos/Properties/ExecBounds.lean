import Pintos.Properties.ArgumentPassing
import Pintos.Userprog.Exec

/-!
# The stores of `exec`

* `memcpy_eq`, `strlcpy_eq` — the copy stays in the page of `file_copy` or leaves it at its end
* `parseArgs_eq`, `argumentStack_eq` — with enough fuel, the loops end only at a store outside
* `words_le_of_parseArgs`, `fitsStack_of_argumentStack` — where they end well there is room for everything
* `exec_in_bounds_iff` — **`exec` stores in bounds exactly where the string, its words and the stack fit**
-/

namespace Pintos.Exec

open Function LittleEndian ByteMemory

@[simp] theorem loops_some {α : Type} (a : α) : loops (some a) = .ok a := rfl

@[simp] theorem stores_some {α : Type} (a : α) : stores (some a) = .ok a := rfl

@[simp] theorem ok_bind {α β : Type} (a : α) (f : α → Except Stop β) : (Except.ok a >>= f) = f a := rfl

/-- A run of two parts, the first without loops. -/
theorem stores_bind {α β : Type} {x : Option α} {f : α → Option β} {g : α → Except Stop β}
    (h : ∀ a, x = some a → g a = stores (f a)) : (stores x >>= g) = stores (x >>= f) := by
  cases x with
  | none => rfl
  | some a => exact h a rfl

theorem not_inPages {page a : Nat} (hkernel : KERN_BASE.toNat ≤ page) (ha : page + PGSIZE ≤ a) : ¬ InPages page a := by
  have hstack : USER_STACK.toNat ≤ KERN_BASE.toNat := by decide
  rintro (h | h)
  · omega
  · exact absurd h.2 (by omega)

/-! ## The copy -/

section

variable {m : Memory} {page dst src fuel : Nat} {xs cmd : List Byte}

/-- The bytes are copied to the page, unless they go over its end. -/
theorem memcpy_eq (h : Holds m src xs) (hsrc : src + xs.length ≤ dst) (hkernel : KERN_BASE.toNat ≤ page)
    (hlow : page ≤ dst) (hhigh : dst ≤ page + PGSIZE) : memcpy page m dst src xs.length =
      if dst + xs.length ≤ page + PGSIZE then .ok (putBytes m dst xs) else .error .outside := by
  induction xs generalizing m dst src with
  | nil => rw [List.length_nil, Nat.add_zero, if_pos hhigh, putBytes_nil, memcpy]
  | cons b xs ih =>
    obtain ⟨hb, hrest⟩ := holds_cons.mp h
    rw [List.length_cons] at hsrc ⊢
    rw [memcpy, poke, hb]
    by_cases hend : dst < page + PGSIZE
    · have hsame : Holds (update m dst b) (src + 1) xs := hrest.congr fun a _ hlt => update_of_ne (by omega) _ _
      rw [if_pos (.inl ⟨hlow, hend⟩)]
      show memcpy page (update m dst b) (dst + 1) (src + 1) xs.length = _
      rw [ih hsame (by omega) (by omega) (by omega), ← putBytes_cons, Nat.add_right_comm, Nat.add_assoc]
    · rw [if_neg (not_inPages hkernel (by omega)), if_neg (by omega)]
      rfl

theorem strlcpy_eq (h : IsString m src cmd) (hsrc : src + cmd.length ≤ page) (hkernel : KERN_BASE.toNat ≤ page)
    (hfuel : cmd.length < fuel) : strlcpy page fuel m page src (cmd.length + 1) =
      if cmd.length + 1 ≤ PGSIZE then .ok (putBytes m page (cmd ++ [0]), cmd.length) else .error .outside := by
  rw [strlcpy, strlen_string h hfuel]
  show (do
    let m ← memcpy page m page src (if cmd.length < cmd.length then cmd.length else cmd.length)
    let m ← poke page m (page + if cmd.length < cmd.length then cmd.length else cmd.length) 0
    Except.ok (m, cmd.length)) = _
  rw [if_neg (Nat.lt_irrefl _), memcpy_eq (holds_append.mp h.bytes).1 hsrc hkernel le_rfl (Nat.le_add_right _ _)]
  by_cases hfits : cmd.length + 1 ≤ PGSIZE
  · rw [if_pos (by omega), if_pos hfits, putBytes_concat]
    show (do
      let m ← poke page (putBytes m page cmd) (page + cmd.length) 0
      Except.ok (m, cmd.length)) = _
    rw [poke, if_pos (.inl ⟨Nat.le_add_right _ _, by omega⟩)]
    rfl
  · rw [if_neg hfits]
    by_cases hcopied : page + cmd.length ≤ page + PGSIZE
    · -- the zero goes over the end
      rw [if_pos hcopied]
      show (do
        let m ← poke page (putBytes m page cmd) (page + cmd.length) 0
        Except.ok (m, cmd.length)) = _
      rw [poke, if_neg (not_inPages hkernel (by omega))]
      rfl
    · rw [if_neg hcopied]
      rfl

end

/-! ## The words -/

section

variable {m m' : Memory} {page fuel n s savePtr save : Nat} {p token : Option Nat} {line : List Byte}
  {parse ps : List Nat} {delimiters : List Byte}

/-- The call of `strtok_r`, where what changes is in the page. -/
theorem strtokR_ok (h : Pintos.strtokR fuel m p delimiters savePtr = some (token, save, m'))
    (hin : ∀ a, m' a ≠ m a → InPages page a) : strtokR page fuel m p delimiters savePtr = .ok (token, save, m') := by
  rw [Pintos.strtokR, Option.bind_eq_bind, Option.bind_eq_some_iff] at h
  obtain ⟨s, hskip, h⟩ := h
  rw [strtokR, hskip]
  show (if m s = 0 then Except.ok (none, s, m) else _) = _
  by_cases hs : m s = 0
  · rw [if_pos hs] at h ⊢
    rw [Option.some.inj h]
  · rw [if_neg hs] at h
    obtain ⟨e, htoken, h⟩ := Option.bind_eq_some_iff.mp h
    rw [if_neg hs, htoken]
    show (if m e ≠ 0 then (do
      let m ← poke page m e 0
      Except.ok (some s, e + 1, m)) else Except.ok (some s, e, m)) = _
    by_cases he : m e = 0
    · rw [if_neg (not_not.mpr he)] at h ⊢
      rw [Option.some.inj h]
    · rw [if_pos he] at h ⊢
      obtain ⟨rfl, rfl, rfl⟩ : some s = token ∧ e + 1 = save ∧ update m e 0 = m' := by
        simpa only [Prod.mk.injEq] using Option.some.inj h
      rw [poke, if_pos (hin e (by rw [update_self]; exact Ne.symm he))]
      rfl

/-- With enough fuel, the loop of `process_exec` ends only where `parse` is full. -/
theorem parseArgs_eq (hn : (words line).length < n) (hfuel : line.length < fuel) (hp : p.getD savePtr = s)
    (h : IsString m s line) (hlow : page ≤ s) (hhigh : s + line.length < page + PGSIZE) :
    parseArgs page fuel n m p savePtr parse = stores (Pintos.parseArgs fuel n m p savePtr parse) := by
  induction n generalizing line s m p savePtr parse with
  | zero => exact absurd hn (Nat.not_lt_zero _)
  | succ n ih =>
    rw [parseArgs, Pintos.parseArgs]
    rcases strtokR_line hfuel hp h with ⟨-, hstr⟩ | ⟨tok, q, save, m₁, rest, hstr, hnext⟩
    · rw [strtokR_ok hstr (fun a ha => absurd rfl ha), hstr]
      rfl
    · have hlast : q + tok.length ≤ save := hnext.last.elim Nat.le_of_lt fun h => h.1.le
      have htotal := hnext.total
      have hfirst := hnext.first
      rw [hnext.split, List.length_cons] at hn
      have hin : ∀ a, m₁ a ≠ m a → InPages page a := by
        intro a ha
        have hrange : ¬ (a < s ∨ s + line.length ≤ a) := fun hout => ha (hnext.others a hout)
        exact .inl ⟨by omega, by omega⟩
      rw [strtokR_ok hstr hin, hstr]
      show (if parse.length < PARSE_SIZE then parseArgs page fuel n m₁ none save (parse ++ [q]) else .error .outside) =
        stores (if parse.length < PARSE_SIZE then Pintos.parseArgs fuel n m₁ none save (parse ++ [q]) else none)
      by_cases hsize : parse.length < PARSE_SIZE
      · rw [if_pos hsize, if_pos hsize]
        have hsaved : (none : Option Nat).getD save = save := rfl
        exact ih (by omega) (by omega) hsaved hnext.saved (by omega) (by omega)
      · rw [if_neg hsize, if_neg hsize]
        rfl

/-- Where the loop ends, its words are in `parse`. -/
theorem words_le_of_parseArgs (hfuel : line.length < fuel) (hp : p.getD savePtr = s) (h : IsString m s line)
    (hsize : parse.length ≤ PARSE_SIZE) (hrun : Pintos.parseArgs fuel n m p savePtr parse = some (ps, m')) :
    parse.length + (words line).length ≤ PARSE_SIZE := by
  induction n generalizing line s m p savePtr parse with
  | zero => exact absurd hrun (by rintro ⟨⟩)
  | succ n ih =>
    rw [Pintos.parseArgs] at hrun
    rcases strtokR_line hfuel hp h with ⟨hwords, -⟩ | ⟨tok, q, save, m₁, rest, hstr, hnext⟩
    · rw [hwords]
      exact hsize
    · have hlast : q + tok.length ≤ save := hnext.last.elim Nat.le_of_lt fun h => h.1.le
      have htotal := hnext.total
      have hfirst := hnext.first
      rw [hstr] at hrun
      change (if parse.length < PARSE_SIZE then Pintos.parseArgs fuel n m₁ none save (parse ++ [q]) else none) = _ at hrun
      by_cases hlt : parse.length < PARSE_SIZE
      · rw [if_pos hlt] at hrun
        have hsaved : (none : Option Nat).getD save = save := rfl
        have hnext' := ih (by omega) hsaved hnext.saved (by rw [List.length_append, List.length_singleton]; omega) hrun
        rw [List.length_append, List.length_singleton] at hnext'
        rw [hnext.split, List.length_cons]
        omega
      · rw [if_neg hlt] at hrun
        exact absurd hrun (by rintro ⟨⟩)

end

/-! ## The stack -/

section

variable {m m' : Memory} {fuel src rsp rsp' n i ptr : Nat} {b : Byte} {parse parse' : List Nat}
  {args : List (List Byte)}

theorem stack_page_pos : 0 < USER_STACK.toNat - PGSIZE := by decide

theorem pokeByte_some (h : pokeByte m rsp b = some m') : InStackPage rsp ∧ m' = update m rsp b := by
  unfold pokeByte at h
  split at h
  · next hin => exact ⟨hin, (Option.some.inj h).symm⟩
  · exact absurd h nofun

theorem pokePtr_some (h : pokePtr m rsp ptr = some m') : InStackPage rsp := by
  unfold pokePtr at h
  split at h
  · next hin => exact hin.1
  · exact absurd h nofun

theorem copyArg_some (h : copyArg src n m rsp = some (m', rsp')) :
    rsp' + n = rsp ∧ ∀ a, ¬ InStackPage a → m' a = m a := by
  induction n generalizing m rsp with
  | zero =>
    obtain ⟨rfl, rfl⟩ : m = m' ∧ rsp = rsp' := by simpa [copyArg] using h
    exact ⟨rfl, fun _ _ => rfl⟩
  | succ n ih =>
    rw [copyArg, Option.bind_eq_bind, Option.bind_eq_some_iff] at h
    obtain ⟨m₁, hpoke, h⟩ := h
    obtain ⟨hin, rfl⟩ := pokeByte_some hpoke
    obtain ⟨htotal, hsame⟩ := ih h
    have hpos := stack_page_pos
    have hlow := hin.1
    refine ⟨by omega, fun a ha => ?_⟩
    rw [hsame a ha, update_of_ne]
    rintro rfl
    exact ha hin

theorem padStack_some (h : padStack n m rsp = some (m', rsp')) : rsp' + n = rsp := by
  induction n generalizing m rsp with
  | zero => exact congrArg Prod.snd (Option.some.inj h).symm
  | succ n ih =>
    rw [padStack, Option.bind_eq_bind, Option.bind_eq_some_iff] at h
    obtain ⟨m₁, hpoke, h⟩ := h
    have hlow := (pokeByte_some hpoke).1.1
    have hpos := stack_page_pos
    have htotal := ih h
    omega

theorem pushPtrs_some (h : pushPtrs parse i m rsp = some (m', rsp')) : rsp' + 8 * i = rsp := by
  induction i generalizing m rsp with
  | zero => exact congrArg Prod.snd (Option.some.inj h).symm
  | succ i ih =>
    rw [pushPtrs, Option.bind_eq_bind, Option.bind_eq_some_iff] at h
    obtain ⟨m₁, hpoke, h⟩ := h
    have hlow := (pokePtr_some hpoke).1
    have hpos := stack_page_pos
    have htotal := ih h
    omega

/-- The first `i` strings, above the stack. -/
def Sources (m : Memory) (parse : List Nat) (args : List (List Byte)) (i : Nat) : Prop :=
  ∀ (j : Nat) (h : j < args.length), j < i →
    IsString m (parse.getD j 0) args[j] ∧ USER_STACK.toNat ≤ parse.getD j 0

/-- The copy of a string leaves the others where they are. -/
theorem Sources.copied {rsp₁ : Nat} {m₁ : Memory} (h : Sources m parse args (i + 1))
    (hsame : ∀ a, ¬ InStackPage a → m₁ a = m a) : Sources m₁ (parse.set i rsp₁) args i := by
  intro j hj hji
  obtain ⟨hstr, habove⟩ := h j hj (hji.trans (Nat.lt_succ_self i))
  have hget : (parse.set i rsp₁).getD j 0 = parse.getD j 0 := by
    rw [List.getD_eq_getElem?_getD, List.getElem?_set_ne hji.ne', List.getD_eq_getElem?_getD]
  rw [hget]
  exact ⟨hstr.congr fun a hle _ => hsame a fun hin => absurd hin.2 (by omega), habove⟩

/-- With enough fuel, the first loop ends only at a store outside. -/
theorem copyArgs_eq (hi : i ≤ args.length) (hstr : Sources m parse args i) (hfuel : ∀ w ∈ args, w.length < fuel) :
    copyArgs fuel i m parse rsp = stores (Pintos.copyArgs fuel i m parse rsp) := by
  induction i generalizing m parse rsp with
  | zero => rfl
  | succ i ih =>
    have hlt : i < args.length := hi
    rw [copyArgs, Pintos.copyArgs, strlen_string (hstr i hlt (Nat.lt_succ_self i)).1 (hfuel _ (List.getElem_mem hlt))]
    rw [loops_some, ok_bind, Option.bind_eq_bind, Option.bind_some]
    exact stores_bind fun _ hcopy => ih (by omega) (hstr.copied (copyArg_some hcopy).2)

theorem copyArgs_some (hi : i ≤ args.length) (hstr : Sources m parse args i) (hfuel : ∀ w ∈ args, w.length < fuel)
    (h : Pintos.copyArgs fuel i m parse rsp = some (m', parse', rsp')) :
    rsp' + (stringBytes (args.take i)).length = rsp ∧ parse'.length = parse.length := by
  induction i generalizing m parse rsp with
  | zero =>
    obtain ⟨-, rfl, rfl⟩ : m = m' ∧ parse = parse' ∧ rsp = rsp' := by simpa [Pintos.copyArgs] using h
    exact ⟨rfl, rfl⟩
  | succ i ih =>
    have hlt : i < args.length := hi
    rw [Pintos.copyArgs, strlen_string (hstr i hlt (Nat.lt_succ_self i)).1 (hfuel _ (List.getElem_mem hlt)),
      Option.bind_eq_bind, Option.bind_some, Option.bind_eq_bind, Option.bind_eq_some_iff] at h
    obtain ⟨⟨m₁, rsp₁⟩, hcopy, h⟩ := h
    obtain ⟨htotal, hsame⟩ := copyArg_some hcopy
    obtain ⟨htotal', hlen⟩ := ih (by omega) (hstr.copied hsame) h
    rw [List.length_set] at hlen
    rw [stringBytes_take_succ hlt, List.length_append, List.length_append, List.length_singleton]
    exact ⟨by omega, hlen⟩

theorem argumentStack_eq (hlen : parse.length = args.length) (hstr : Sources m parse args args.length)
    (hfuel : ∀ w ∈ args, w.length < fuel) :
    argumentStack fuel m parse rsp = stores (Pintos.argumentStack fuel m parse rsp) := by
  rw [argumentStack, Pintos.argumentStack, hlen, copyArgs_eq le_rfl hstr hfuel]
  exact stores_bind fun _ _ => stores_bind fun _ _ => stores_bind fun _ _ => stores_bind fun _ _ =>
    stores_bind fun _ _ => rfl

/-- Where `argument_stack` ends, there was room for what it pushes. -/
theorem fitsStack_of_argumentStack (hlen : parse.length = args.length) (hstr : Sources m parse args args.length)
    (hfuel : ∀ w ∈ args, w.length < fuel)
    (h : Pintos.argumentStack fuel m parse USER_STACK.toNat = some (m', parse', rsp')) : FitsStack args := by
  rw [Pintos.argumentStack, hlen] at h
  obtain ⟨⟨m₁, parse₁, rsp₁⟩, hcopy, h⟩ := Option.bind_eq_some_iff.mp h
  obtain ⟨hcopied, hlen₁⟩ := copyArgs_some le_rfl hstr hfuel hcopy
  rw [List.take_length] at hcopied
  obtain ⟨⟨m₂, rsp₂⟩, hpad, h⟩ := Option.bind_eq_some_iff.mp h
  have hpadded := padStack_some hpad
  have hrsp : rsp₁ = USER_STACK.toNat - (stringBytes args).length := by omega
  rw [hrsp, padding_eq (by omega)] at hpadded
  obtain ⟨m₃, hnull, h⟩ := Option.bind_eq_some_iff.mp h
  have hnulled := (pokePtr_some hnull).1
  obtain ⟨⟨m₄, rsp₄⟩, hptrs, h⟩ := Option.bind_eq_some_iff.mp h
  have hpushed := pushPtrs_some hptrs
  obtain ⟨m₅, hret, h⟩ := Option.bind_eq_some_iff.mp h
  have hreturned := (pokePtr_some hret).1
  have hpos := stack_page_pos
  have hpage : PGSIZE ≤ USER_STACK.toNat := by decide
  unfold FitsStack
  omega

end

/-! ## `exec` -/

/-- `process_cleanup` and `load` leave the page of `file_copy` as it is. -/
structure Loader.Keeps (loader : Loader) (page : Nat) : Prop where
  cleanup : ∀ m a, page ≤ a → a < page + PGSIZE → loader.cleanup m a = m a
  load : ∀ f ∈ loader.load, ∀ m a, page ≤ a → a < page + PGSIZE → f m a = m a

/-- There is room for the string, for its words and, where `load` succeeds, for the stack. -/
structure Fits (loader : Loader) (cmd : List Byte) : Prop where
  copy : cmd.length + 1 ≤ PGSIZE
  tokens : (words cmd).length ≤ PARSE_SIZE
  stack : loader.load.isSome → FitsStack (words cmd)

section

variable {m : Memory} {page fuel file : Nat} {cmd : List Byte} {loader : Loader} {fileCopy : Option Nat}

/-- The words of the page are where `argument_stack` reads them. -/
theorem sources_of_tokens {load : Memory → Memory} {parse : List Nat} (hkernel : KERN_BASE.toNat ≤ page)
    (htokens : Tokens m page (page + cmd.length) parse (words cmd)) (hlen : cmd.length + 1 ≤ PGSIZE)
    (hload : ∀ m a, page ≤ a → a < page + PGSIZE → load m a = m a) :
    Sources (load m) parse (words cmd) (words cmd).length := by
  have hstack : USER_STACK.toNat ≤ KERN_BASE.toNat := by decide
  intro j hj _
  have hj' : j < parse.length := htokens.length_eq ▸ hj
  have hget := htokens.get hj' hj
  have hlow := hget.2.1
  have hhigh : parse[j] + (words cmd)[j].length ≤ page + cmd.length := hget.2.2
  rw [List.getD_eq_getElem _ _ hj']
  exact ⟨hget.1.congr fun a hle hle' => hload m a (hlow.trans hle) (by omega), hstack.trans (hkernel.trans hlow)⟩

/-- `process_exec` on a string of the page. -/
theorem processExec_cases (hcmd : IsString m page cmd) (hlen : cmd.length + 1 ≤ PGSIZE)
    (hkernel : KERN_BASE.toNat ≤ page) (hkeeps : loader.Keeps page) (hfuel : cmd.length + 1 < fuel) :
    (Fits loader cmd ∧ ∃ r, processExec page fuel loader m page = .ok r) ∨
      (¬ Fits loader cmd ∧ processExec page fuel loader m page = .error .outside) := by
  have hwords := length_words_le cmd
  have hclean : IsString (loader.cleanup m) page cmd :=
    hcmd.congr fun a hle hle' => hkeeps.cleanup m a hle (by omega)
  have hparse : parseArgs page fuel fuel (loader.cleanup m) (some page) 0 [] =
      stores (Pintos.parseArgs fuel fuel (loader.cleanup m) (some page) 0 []) :=
    parseArgs_eq (by omega) (by omega) (show (some page).getD 0 = page from rfl) hclean le_rfl (by omega)
  rw [processExec, hparse]
  by_cases htokens : (words cmd).length ≤ PARSE_SIZE
  · obtain ⟨parse, m₁, hrun, hparsed, -⟩ : ∃ ps m', Pintos.parseArgs fuel fuel (loader.cleanup m) (some page) 0 [] =
        some ([] ++ ps, m') ∧ _ :=
      parseArgs_words (by omega : (words cmd).length < fuel) (by omega : cmd.length < fuel) rfl hclean
        (by rw [List.length_nil, Nat.zero_add]; exact htokens)
    rw [hrun, List.nil_append, stores_some, ok_bind]
    dsimp only
    rcases hload : loader.load with _ | load
    · refine .inl ⟨⟨hlen, htokens, ?_⟩, none, rfl⟩
      rw [hload]
      exact nofun
    · -- the program is loaded, and `argument_stack` comes to the end of the page or not
      have hsources := sources_of_tokens hkernel hparsed hlen (hkeeps.load load hload)
      have hshort : ∀ w ∈ words cmd, w.length < fuel := fun w hw => (hparsed.length_le hw).trans_lt (by omega)
      have hstack : argumentStack fuel (load m₁) parse USER_STACK.toNat = _ :=
        argumentStack_eq hparsed.length_eq hsources hshort
      dsimp only
      rw [hstack]
      rcases hpushed : Pintos.argumentStack fuel (load m₁) parse USER_STACK.toNat with _ | ⟨m₂, parse', rsp⟩
      · refine .inr ⟨fun hfits => ?_, rfl⟩
        obtain ⟨m₂, parse', rsp, hok, -⟩ := argumentStack_pushes hparsed.length_eq
          (fun j h => hsources j h h) hshort (hfits.stack (by rw [hload]; rfl))
        rw [hpushed] at hok
        exact absurd hok nofun
      · exact .inl ⟨⟨hlen, htokens, fun _ => fitsStack_of_argumentStack hparsed.length_eq hsources hshort hpushed⟩,
          _, rfl⟩
  · -- the loop comes to the end of `parse`
    refine .inr ⟨fun hfits => htokens hfits.tokens, ?_⟩
    rcases hrun : Pintos.parseArgs fuel fuel (loader.cleanup m) (some page) 0 [] with _ | ⟨parse, m₁⟩
    · rfl
    · have hle := words_le_of_parseArgs (by omega) (show (some page).getD 0 = page from rfl) hclean (Nat.zero_le _) hrun
      rw [List.length_nil, Nat.zero_add] at hle
      exact absurd hle htokens

/-- `exec` comes to its end where everything fits, and stores outside where something does not. -/
theorem exec_cases (hcmd : IsString m file cmd) (huser : file + cmd.length < KERN_BASE.toNat)
    (hkernel : KERN_BASE.toNat ≤ page) (hkeeps : loader.Keeps page) (hfuel : cmd.length + 1 < fuel) :
    (Fits loader cmd ∧ ∃ r, exec fuel loader (some page) m file = .ok r) ∨
      (¬ Fits loader cmd ∧ exec fuel loader (some page) m file = .error .outside) := by
  have hzeroed : IsString (putBytes m page (List.replicate PGSIZE 0)) file cmd :=
    hcmd.congr fun a _ hle => by rw [putBytes, if_neg (by omega)]
  have hcopy := strlcpy_eq hzeroed (by omega) hkernel (by omega : cmd.length < fuel)
  have hrun : exec fuel loader (some page) m file = 
      (strlcpy page fuel (putBytes m page (List.replicate PGSIZE 0)) page file (cmd.length + 1) >>= fun r =>
        processExec page fuel loader r.1 page) := by
    rw [exec]
    dsimp only
    rw [strlen_string hzeroed (by omega), loops_some, ok_bind]
  rw [hrun, hcopy]
  by_cases hlen : cmd.length + 1 ≤ PGSIZE
  · rw [if_pos hlen, ok_bind]
    exact processExec_cases ⟨holds_putBytes _ _ _, hcmd.nonzero⟩ hlen hkernel hkeeps hfuel
  · rw [if_neg hlen]
    exact .inr ⟨fun hfits => hlen hfits.copy, rfl⟩

/-- With enough fuel, `exec` makes a store outside exactly where it gets a page and something does not fit. -/
theorem exec_in_bounds_iff (hcmd : IsString m file cmd) (huser : file + cmd.length < KERN_BASE.toNat)
    (hpage : ∀ page ∈ fileCopy, KERN_BASE.toNat ≤ page ∧ loader.Keeps page) (hfuel : cmd.length + 1 < fuel) :
    exec fuel loader fileCopy m file ≠ .error .outOfFuel ∧
      (exec fuel loader fileCopy m file ≠ .error .outside ↔ (fileCopy.isSome → Fits loader cmd)) := by
  rcases fileCopy with _ | page
  · exact ⟨nofun, fun _ => nofun, fun _ => nofun⟩
  · obtain ⟨hkernel, hkeeps⟩ := hpage page rfl
    rcases exec_cases hcmd huser hkernel hkeeps hfuel with ⟨hfits, r, hrun⟩ | ⟨hnot, hrun⟩
    · rw [hrun]
      exact ⟨nofun, fun _ _ => hfits, fun _ => nofun⟩
    · rw [hrun]
      exact ⟨nofun, fun h => absurd rfl h, fun h => absurd (h rfl) hnot⟩

end

/-- A loader that starts every program. -/
def anyProgram : Loader := { cleanup := id, load := some id }

theorem anyProgram_keeps (page : Nat) : anyProgram.Keeps page :=
  ⟨fun _ _ _ _ => rfl, fun f hf m a _ _ => by cases hf; rfl⟩

/-- The memory of a process with a string at the first address of its code. -/
def userMemory (cmd : List Byte) : Memory := putBytes (fun _ => 0) 0x400000 (cmd ++ [0])

theorem exec_in_bounds_iff_echo :
    exec 8 anyProgram (some KERN_BASE.toNat) (userMemory echoLine) 0x400000 ≠ .error .outOfFuel ∧
      (exec 8 anyProgram (some KERN_BASE.toNat) (userMemory echoLine) 0x400000 ≠ .error .outside ↔
        ((some KERN_BASE.toNat).isSome → Fits anyProgram echoLine)) :=
  exec_in_bounds_iff ⟨holds_putBytes _ _ _, by decide⟩ (by decide)
    (fun page hpage => by cases hpage; exact ⟨le_rfl, anyProgram_keeps _⟩) (by decide)

/-- A page of the letter a. -/
def longLine : List Byte := List.replicate PGSIZE 0x61

/-- The zero of a string of a page's length goes to the next page. -/
theorem exec_leaves_page : IsString (userMemory longLine) 0x400000 longLine ∧
    exec 5000 anyProgram (some KERN_BASE.toNat) (userMemory longLine) 0x400000 = .error .outside := by
  have hlen : longLine.length = PGSIZE := List.length_replicate
  have hpage : PGSIZE = 4096 := rfl
  have hkern : KERN_BASE.toNat = 0x8004000000 := rfl
  have hstr : IsString (userMemory longLine) 0x400000 longLine :=
    ⟨holds_putBytes _ _ _, fun b hb => by rw [List.eq_of_mem_replicate hb]; decide⟩
  refine ⟨hstr, ?_⟩
  rcases exec_cases hstr (by omega) le_rfl (anyProgram_keeps _) (by omega : longLine.length + 1 < 5000)
    with ⟨hfits, -⟩ | ⟨-, hrun⟩
  · exact absurd hfits.copy (by omega)
  · exact hrun

end Pintos.Exec
