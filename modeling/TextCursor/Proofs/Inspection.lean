import Mathlib.Logic.Function.Basic
import TextCursor.Inspect

/-!
# Inspection texts can be read back

The inspection text of a value has texts and numbers of any form between its field names. It still
tells them apart, since each of its parts tells where it ends: a quoted text by the quote that is
not escaped, a number by the first character that is no digit.

* `SelfDelimiting`: what is kept from the parts to the whole. Equal texts that start with two codes
  start with the codes of equal values, whatever follows.
* `toDigits_inj`, `toDigits_append_cons_inj`: a number is its digits, and it ends before a character
  that is none of them (`repr_append_inj`).
* `Quoted.escape_append_inj`, `Quoted.escape_append_ne_quote`: an escaped character tells where it
  ends, and none starts with a quote; hence a quoted text does not end early
  (`selfDelimiting_quote`).
* `Snippet.selfDelimiting_inspect`, `Failure.selfDelimiting_inspect`: fields one after another.
* `inspect_eq_iff`: two values with one inspection text are equal.
-/

namespace TextCursor

namespace Text

/-! ## Digits -/

theorem digitChar_inj : ∀ m < 16, ∀ n < 16, Nat.digitChar m = Nat.digitChar n → m = n := by
  decide

theorem exists_digitChar_of_mem_toDigits {b n : Nat} {c : Char} (hb : 1 < b)
    (h : c ∈ Nat.toDigits b n) : ∃ k, c = Nat.digitChar k := by
  induction n using Nat.strongRecOn with
  | ind n ih =>
    rw [Nat.toDigits_eq_if hb] at h
    split at h
    · exact ⟨n, List.mem_singleton.1 h⟩
    · rcases List.mem_append.1 h with h | h
      · exact ih (n / b) (Nat.div_lt_self (by omega) hb) h
      · exact ⟨n % b, List.mem_singleton.1 h⟩

/-- A number is its digits, in every base that has a character for each of them. -/
theorem toDigits_inj {b m n : Nat} (hb : 1 < b) (hb' : b ≤ 16)
    (h : Nat.toDigits b m = Nat.toDigits b n) : m = n := by
  induction m using Nat.strongRecOn generalizing n with
  | ind m ih =>
    rw [Nat.toDigits_eq_if hb, Nat.toDigits_eq_if (n := n) hb] at h
    split at h <;> split at h
    · exact digitChar_inj m (by omega) n (by omega) (List.singleton_inj.1 h)
    · simp [Nat.toDigits_ne_nil, List.singleton_eq_append_iff] at h
    · simp [Nat.toDigits_ne_nil, List.append_eq_singleton_iff] at h
    · -- the last digit is the remainder, and the digits before it are those of the quotient
      obtain ⟨hquotient, hlast⟩ := List.append_inj' h rfl
      have hdiv := ih (m / b) (Nat.div_lt_self (by omega) hb) hquotient
      have hm := Nat.mod_lt m (Nat.zero_lt_of_lt hb)
      have hn := Nat.mod_lt n (Nat.zero_lt_of_lt hb)
      have hmod := digitChar_inj _ (by omega) _ (by omega) (List.singleton_inj.1 hlast)
      rw [← Nat.div_add_mod m b, ← Nat.div_add_mod n b, hdiv, hmod]

/-- What comes before the first `q` tells where it ends. -/
theorem append_cons_inj {q : Char} {cs ds r r' : List Char} (hcs : q ∉ cs) (hds : q ∉ ds)
    (h : cs ++ q :: r = ds ++ q :: r') : cs = ds ∧ r = r' := by
  induction cs generalizing ds with
  | nil =>
    cases ds with
    | nil => exact ⟨rfl, (List.cons.inj h).2⟩
    | cons d ds => exact absurd (List.cons.inj h).1 (List.ne_of_not_mem_cons hds)
  | cons c cs ih =>
    cases ds with
    | nil => exact absurd (List.cons.inj h).1.symm (List.ne_of_not_mem_cons hcs)
    | cons d ds =>
      obtain ⟨rfl, htail⟩ := List.cons.inj h
      obtain ⟨rfl, hr⟩ := ih (List.not_mem_of_not_mem_cons hcs) (List.not_mem_of_not_mem_cons hds)
        htail
      exact ⟨rfl, hr⟩

/-- A number ends before a character that is no digit. -/
theorem toDigits_append_cons_inj {b m n : Nat} {q : Char} {r r' : List Char} (hb : 1 < b)
    (hb' : b ≤ 16) (hq : ∀ k, Nat.digitChar k ≠ q)
    (h : Nat.toDigits b m ++ q :: r = Nat.toDigits b n ++ q :: r') : m = n ∧ r = r' := by
  have hnot : ∀ k, q ∉ Nat.toDigits b k := by
    intro k hk
    obtain ⟨j, hj⟩ := exists_digitChar_of_mem_toDigits hb hk
    exact hq j hj.symm
  obtain ⟨hdigits, hr⟩ := append_cons_inj (hnot m) (hnot n) h
  exact ⟨toDigits_inj hb hb' hdigits, hr⟩

/-! ## Quoted texts -/

namespace Quoted

/-- The characters that are written as a backslash and another character. -/
def shorthands : List (Char × Char) :=
  [('"', '"'), ('\\', '\\'), ('\n', 'n'), ('\r', 'r'), ('\t', 't'), ('\x00', '0')]

/-- The three ways to write a character. -/
theorem escape_cases (c : Char) :
    (∃ x, (c, x) ∈ shorthands ∧ escape c = ['\\', x]) ∨
      escape c = '\\' :: 'u' :: '\x7b' :: (Nat.toDigits 16 c.toNat ++ ['\x7d']) ∨
      (c ≠ '\\' ∧ c ≠ '"' ∧ escape c = [c]) := by
  unfold escape
  split
  -- the six shorthands, and then any other character
  iterate 6 exact .inl ⟨_, by simp [shorthands], rfl⟩
  · split
    · exact .inr (.inl rfl)
    · exact .inr (.inr ⟨by assumption, by assumption, rfl⟩)

theorem shorthands_inj :
    ∀ x ∈ shorthands, ∀ y ∈ shorthands, x.2 = y.2 → x.1 = y.1 := by decide

theorem shorthands_ne_u : ∀ x ∈ shorthands, x.2 ≠ 'u' := by decide

/-- **An escaped character tells where it ends.** -/
theorem escape_append_inj {c d : Char} {r r' : List Char}
    (h : escape c ++ r = escape d ++ r') : c = d ∧ r = r' := by
  -- only two of one kind can start alike: the first character tells whether `c` is written as it
  -- is, and the second one whether it is written by its number
  rcases escape_cases c with ⟨x, hx, hc⟩ | hc | ⟨hc', -, hc⟩
  · rcases escape_cases d with ⟨y, hy, hd⟩ | hd | ⟨hd', -, hd⟩ <;> rw [hc, hd] at h
    · obtain ⟨hxy, hr⟩ := List.cons.inj (List.cons.inj h).2
      exact ⟨shorthands_inj _ hx _ hy hxy, hr⟩
    · exact absurd (List.cons.inj (List.cons.inj h).2).1 (shorthands_ne_u _ hx)
    · exact absurd (List.cons.inj h).1.symm hd'
  · rcases escape_cases d with ⟨y, hy, hd⟩ | hd | ⟨hd', -, hd⟩ <;> rw [hc, hd] at h
    · exact absurd (List.cons.inj (List.cons.inj h).2).1.symm (shorthands_ne_u _ hy)
    · simp only [List.cons_append, List.append_assoc, List.nil_append, List.cons.injEq,
        true_and] at h
      obtain ⟨hcode, hr⟩ := toDigits_append_cons_inj (by decide) (by decide)
        (fun _ => Nat.digitChar_ne _ (by decide)) h
      exact ⟨Char.toNat_inj.1 hcode, hr⟩
    · exact absurd (List.cons.inj h).1.symm hd'
  · rcases escape_cases d with ⟨y, hy, hd⟩ | hd | ⟨hd', -, hd⟩ <;> rw [hc, hd] at h
    · exact absurd (List.cons.inj h).1 hc'
    · exact absurd (List.cons.inj h).1 hc'
    · exact List.cons.inj h

/-- No escaped character starts as the end of a quoted text does. -/
theorem escape_append_ne_quote (c : Char) (r r' : List Char) : escape c ++ r ≠ '"' :: r' := by
  intro h
  rcases escape_cases c with ⟨x, -, hc⟩ | hc | ⟨-, hc', hc⟩ <;> rw [hc] at h
  · exact absurd (List.cons.inj h).1 (by decide)
  · exact absurd (List.cons.inj h).1 (by decide)
  · exact hc' (List.cons.inj h).1

/-- **A quoted text does not end early.** -/
theorem flatMap_escape_append_inj {cs ds r r' : List Char}
    (h : cs.flatMap escape ++ '"' :: r = ds.flatMap escape ++ '"' :: r') :
    cs = ds ∧ r = r' := by
  induction cs generalizing ds with
  | nil =>
    cases ds with
    | nil => exact ⟨rfl, (List.cons.inj h).2⟩
    | cons d ds =>
      rw [List.flatMap_cons, List.append_assoc] at h
      exact absurd h.symm (escape_append_ne_quote d _ r)
  | cons c cs ih =>
    cases ds with
    | nil =>
      rw [List.flatMap_cons, List.append_assoc] at h
      exact absurd h (escape_append_ne_quote c _ r')
    | cons d ds =>
      rw [List.flatMap_cons, List.flatMap_cons, List.append_assoc, List.append_assoc] at h
      obtain ⟨rfl, htail⟩ := escape_append_inj h
      obtain ⟨rfl, hr⟩ := ih htail
      exact ⟨rfl, hr⟩

theorem encode_append_inj {cs ds r r' : List Char} (h : encode cs ++ r = encode ds ++ r') :
    cs = ds ∧ r = r' := by
  simp only [encode, List.cons_append, List.append_assoc, List.nil_append, List.cons.injEq,
    true_and] at h
  exact flatMap_escape_append_inj h

end Quoted

end Text

/-! ## Codes that tell where they end -/

/-- Equal texts that start with two codes start with the codes of equal values, and go on in the
same way. -/
def SelfDelimiting {α : Type} (code : α → String) : Prop :=
  ∀ ⦃a b : α⦄ ⦃r r' : String⦄, code a ++ r = code b ++ r' → a = b ∧ r = r'

theorem SelfDelimiting.injective {α : Type} {code : α → String} (h : SelfDelimiting code) :
    Function.Injective code := by
  intro a b hab
  exact (h (congrArg (· ++ "") hab)).1

/-- Between two fixed texts a code still tells where it ends. -/
theorem SelfDelimiting.enclose {α : Type} {code : α → String} (h : SelfDelimiting code)
    (u v : String) : SelfDelimiting fun a => u ++ code a ++ v := by
  intro a b r r' hab
  simp only [String.append_assoc, String.append_right_inj] at hab
  obtain ⟨hcode, hr⟩ := h hab
  exact ⟨hcode, (String.append_right_inj v).1 hr⟩

open Text

theorem selfDelimiting_quote : SelfDelimiting quote := by
  intro s s' r r' h
  have hl := congrArg String.toList h
  simp only [String.toList_append, quote, String.toList_ofList] at hl
  obtain ⟨hs, hr⟩ := Quoted.encode_append_inj hl
  exact ⟨String.toList_injective hs, String.toList_injective hr⟩

/-- A number ends before a fixed text that does not start with a digit. -/
theorem repr_append_inj {p p' : Position} {q : Char} {mark u r r' : String}
    (h : Nat.repr p.toNat ++ (mark ++ r) = Nat.repr p'.toNat ++ (mark ++ r'))
    (hmark : mark = String.singleton q ++ u) (hq : ∀ k, Nat.digitChar k ≠ q) :
    p = p' ∧ r = r' := by
  have hl := congrArg String.toList h
  simp only [hmark, String.toList_append, Nat.toList_repr, String.toList_singleton,
    List.singleton_append] at hl
  obtain ⟨hp, htail⟩ := toDigits_append_cons_inj (by decide) (by decide) hq hl
  have hr := List.append_cancel_left htail
  exact ⟨UInt64.toNat_inj.1 hp, String.toList_injective hr⟩

/-! ## Inspection texts -/

theorem Snippet.selfDelimiting_inspect : SelfDelimiting Snippet.inspect := by
  have hcomma : ", length: " = String.singleton ',' ++ " length: " := by decide
  have hblank : " \x7d" = String.singleton ' ' ++ "\x7d" := by decide
  intro s s' r r' h
  unfold Snippet.inspect at h
  simp only [String.append_assoc] at h
  obtain ⟨hsource, h⟩ := selfDelimiting_quote ((String.append_right_inj _).1 h)
  obtain ⟨hoffset, h⟩ := repr_append_inj ((String.append_right_inj _).1 h) hcomma
    fun _ => Nat.digitChar_ne _ (by decide)
  obtain ⟨hlength, hr⟩ := repr_append_inj h hblank
    fun _ => Nat.digitChar_ne _ (by decide)
  obtain ⟨source, offset, length⟩ := s
  obtain ⟨source', offset', length'⟩ := s'
  obtain rfl : source = source' := hsource
  obtain rfl : offset = offset' := hoffset
  obtain rfl : length = length' := hlength
  exact ⟨rfl, hr⟩

theorem Tag.selfDelimiting_inspect : SelfDelimiting Tag.inspect := by
  intro t t' r r' h
  obtain ⟨hexpected, hr⟩ := selfDelimiting_quote.enclose "Tag(" ")" h
  exact ⟨congrArg Tag.mk hexpected, hr⟩

theorem Failure.selfDelimiting_inspect : SelfDelimiting Failure.inspect := by
  rintro ⟨s, ⟨⟩⟩ ⟨s', ⟨⟩⟩ r r' h
  unfold Failure.inspect at h
  simp only [String.append_assoc] at h
  obtain ⟨rfl, h⟩ := Snippet.selfDelimiting_inspect ((String.append_right_inj _).1 h)
  simp only [String.append_right_inj] at h
  exact ⟨rfl, h⟩

theorem Outcome.inspect_injective : Function.Injective Outcome.inspect := by
  have hne : ∀ s f, Outcome.inspect (.ok s) ≠ Outcome.inspect (.error f) := by
    intro s f h
    simpa [Outcome.inspect] using congrArg String.toList h
  intro o o' h
  cases o with
  | ok s =>
    cases o' with
    | ok s' =>
      exact congrArg _ ((Snippet.selfDelimiting_inspect.enclose "Ok(" ")").injective h)
    | error f => exact absurd h (hne s f)
  | error f =>
    cases o' with
    | ok s => exact absurd h.symm (hne s f)
    | error f' =>
      exact congrArg _ ((Failure.selfDelimiting_inspect.enclose "Err(" ")").injective h)

/-- **Two values have one inspection text exactly if they are equal**, whatever texts they hold:
snippets, tags, failures and outcomes. -/
theorem inspect_eq_iff :
    (∀ s s' : Snippet, s.inspect = s'.inspect ↔ s = s') ∧
    (∀ t t' : Tag, t.inspect = t'.inspect ↔ t = t') ∧
    (∀ f f' : Failure, f.inspect = f'.inspect ↔ f = f') ∧
    (∀ o o' : Outcome, Outcome.inspect o = Outcome.inspect o' ↔ o = o') := by
  refine ⟨fun s s' => ?_, fun t t' => ?_, fun f f' => ?_, fun o o' => ?_⟩
  · exact Snippet.selfDelimiting_inspect.injective.eq_iff
  · exact Tag.selfDelimiting_inspect.injective.eq_iff
  · exact Failure.selfDelimiting_inspect.injective.eq_iff
  · exact Outcome.inspect_injective.eq_iff

-- a text that imitates the fields stays inside its quotes
example : (Snippet.mk "\", offset: 1" 0 2).inspect =
    "Snippet \x7b source: \"\\\", offset: 1\", offset: 0, length: 2 \x7d" := by decide +kernel

end TextCursor
