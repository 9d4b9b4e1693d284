import JobWorker.Base.TextsFromEnd
import Mathlib

/-!
# Texts of Python values

`str` of the values that a call of a job may carry, as `job_worker/job.py:29–31` uses it. Which
characters outside ASCII are printable is a parameter.
-/

namespace JobWorker

open TextsFromEnd

/-- A value without parts; these are the keys of dictionaries too. -/
inductive PyScalar
  | none
  | bool (b : Bool)
  | int (i : Int)
  | str (s : String)
  deriving DecidableEq

/-- A positional or keyword argument. -/
inductive PyValue
  | scalar (s : PyScalar)
  | list (items : List PyValue)
  | dict (items : List (PyScalar × PyValue))

/-- Induction over the parts of a value. -/
@[elab_as_elim]
theorem PyValue.tree_induction {P : PyValue → Prop} (scalar : ∀ s, P (.scalar s))
    (list : ∀ items, (∀ w ∈ items, P w) → P (.list items))
    (dict : ∀ items : List (PyScalar × PyValue), (∀ f ∈ items, P f.2) → P (.dict items))
    (v : PyValue) : P v := by
  have hcons {α : Type} {Q : α → Prop} (head : α) (tail : List α) (hhead : Q head)
      (htail : ∀ a ∈ tail, Q a) : ∀ a ∈ head :: tail, Q a :=
    List.forall_mem_cons.mpr ⟨hhead, htail⟩
  exact PyValue.rec (motive_2 := fun items ↦ ∀ w ∈ items, P w)
    (motive_3 := fun fields ↦ ∀ f ∈ fields, P f.2) (motive_4 := fun f ↦ P f.2)
    scalar list dict nofun hcons nofun hcons (fun _ _ h ↦ h) v

/-! ### Strings -/

/-- `width` hexadecimal digits of a number. -/
def hexDigits : Nat → Nat → List Char
  | 0, _ => []
  | width + 1, n => hexDigits width (n / 16) ++ [Nat.digitChar (n % 16)]

/-- An apostrophe. -/
def singleQuote : Char := Char.ofNat 0x27

/-- A quotation mark. -/
def doubleQuote : Char := Char.ofNat 0x22

/-- The quotes of `repr`: quotation marks around a text that has apostrophes and no quotation
marks. -/
def quoteOf (s : List Char) : Char :=
  if singleQuote ∈ s ∧ doubleQuote ∉ s then doubleQuote else singleQuote

variable (isPrintable : Char → Bool)

/-- A character between quotes. -/
def escapeChar (quote c : Char) : List Char :=
  if c = quote ∨ c = '\\' then ['\\', c]
  else if c = '\t' then ['\\', 't']
  else if c = '\n' then ['\\', 'n']
  else if c = '\r' then ['\\', 'r']
  else if c.toNat < 0x20 ∨ c.toNat = 0x7f then '\\' :: 'x' :: hexDigits 2 c.toNat
  else if c.toNat < 0x7f ∨ isPrintable c then [c]
  else if c.toNat ≤ 0xff then '\\' :: 'x' :: hexDigits 2 c.toNat
  else if c.toNat ≤ 0xffff then '\\' :: 'u' :: hexDigits 4 c.toNat
  else '\\' :: 'U' :: hexDigits 8 c.toNat

/-- The text between the quotes. -/
def escaped (quote : Char) (s : List Char) : List Char := s.flatMap (escapeChar isPrintable quote)

/-- `repr` of a string. -/
def strText (s : String) : List Char :=
  quoteOf s.toList :: escaped isPrintable (quoteOf s.toList) s.toList ++ [quoteOf s.toList]

/-! ### Other values -/

/-- `repr` of an integer. -/
def intText (i : Int) : List Char :=
  if i < 0 then '-' :: Nat.toDigits 10 i.natAbs else Nat.toDigits 10 i.natAbs

/-- `repr` of a value without parts. -/
def PyScalar.text : PyScalar → List Char
  | .none => "None".toList
  | .bool true => "True".toList
  | .bool false => "False".toList
  | .int i => intText i
  | .str s => strText isPrintable s

/-- A list of texts in `repr` of a list, a tuple or a dictionary. -/
def commaSeparated (texts : List (List Char)) : List Char := List.intercalate [',', ' '] texts

mutual

/-- `repr` of a value. -/
def PyValue.text : PyValue → List Char
  | .scalar s => s.text isPrintable
  | .list items => '[' :: commaSeparated (itemTexts items) ++ [']']
  | .dict items => '{' :: commaSeparated (fieldTexts items) ++ ['}']

/-- `repr` of the items of a list. -/
def itemTexts : List PyValue → List (List Char)
  | [] => []
  | v :: items => v.text :: itemTexts items

/-- `repr` of the items of a dictionary. -/
def fieldTexts : List (PyScalar × PyValue) → List (List Char)
  | [] => []
  | (key, v) :: items => (key.text isPrintable ++ [':', ' '] ++ v.text) :: fieldTexts items

end

/-- `repr` of a tuple; one of a single item keeps its comma. -/
def tupleText (items : List PyValue) : List Char :=
  match items with
  | [v] => '(' :: v.text isPrintable ++ [',', ')']
  | items => '(' :: commaSeparated (items.map (PyValue.text isPrintable)) ++ [')']

/-! ### Reading strings -/

section Strings

variable {isPrintable : Char → Bool} {quote c d : Char} {u v : List Char}

@[simp] theorem length_hexDigits (width n : Nat) : (hexDigits width n).length = width := by
  induction width generalizing n with
  | zero => rfl
  | succ width ih => simp [hexDigits, ih]

theorem digitChar_inj {m n : Nat} (hm : m < 16) (hn : n < 16)
    (h : Nat.digitChar m = Nat.digitChar n) : m = n := by
  have hall : ∀ m < 16, ∀ n < 16, Nat.digitChar m = Nat.digitChar n → m = n := by decide
  exact hall m hm n hn h

theorem hexDigits_inj {width m n : Nat} (hm : m < 16 ^ width) (hn : n < 16 ^ width)
    (h : hexDigits width m = hexDigits width n) : m = n := by
  induction width generalizing m n with
  | zero => omega
  | succ width ih =>
    obtain ⟨hrest, hlast⟩ := concat_inj.mp h
    rw [Nat.pow_succ] at hm hn
    have hdiv : m / 16 = n / 16 := ih (by omega) (by omega) hrest
    have hmod : m % 16 = n % 16 := digitChar_inj (by omega) (by omega) hlast
    omega

/-- The hexadecimal digits behind an escape. -/
def escapeWidth (tag : Char) : Nat :=
  if tag = 'x' then 2 else if tag = 'u' then 4 else if tag = 'U' then 8 else 0

/-- The character of an escape without digits. -/
def shortEscape (tag : Char) : Char :=
  if tag = 't' then '\t' else if tag = 'n' then '\n' else if tag = 'r' then '\r' else tag

/-- The quotes. -/
def IsQuote (quote : Char) : Prop := quote = singleQuote ∨ quote = doubleQuote

theorem isQuote_quoteOf (s : List Char) : IsQuote (quoteOf s) := by
  unfold quoteOf
  split
  · exact .inr rfl
  · exact .inl rfl

theorem IsQuote.ne_backslash (h : IsQuote quote) : quote ≠ '\\' := by
  rcases h with rfl | rfl <;> decide

/-- A character between quotes stands for itself, or behind a backslash. -/
theorem escapeChar_cases (isPrintable : Char → Bool) (h : IsQuote quote) (c : Char) :
    escapeChar isPrintable quote c = [c] ∧ c ≠ quote ∧ c ≠ '\\' ∨
      ∃ tag, escapeChar isPrintable quote c = '\\' :: tag :: hexDigits (escapeWidth tag) c.toNat ∧
        (escapeWidth tag = 0 → c = shortEscape tag) ∧
        (escapeWidth tag ≠ 0 → c.toNat < 16 ^ escapeWidth tag) ∧ (c ≠ quote → tag ≠ quote) := by
  have hlt : c.toNat < 2 ^ 32 := c.val.toNat_lt
  have htag {tag : Char} (htag : tag ≠ singleQuote ∧ tag ≠ doubleQuote) : tag ≠ quote := by
    rintro rfl
    rcases h with rfl | rfl
    · exact htag.1 rfl
    · exact htag.2 rfl
  unfold escapeChar
  split
  · next hself =>
    have hshort : escapeWidth c = 0 ∧ c = shortEscape c := by
      rcases hself with rfl | rfl
      · rcases h with rfl | rfl <;> decide
      · decide
    refine .inr ⟨c, ?_, fun _ ↦ hshort.2, fun hw ↦ absurd hshort.1 hw, id⟩
    rw [hshort.1]
    rfl
  split
  · next heq => exact .inr ⟨'t', rfl, fun _ ↦ heq, fun hw ↦ absurd rfl hw, fun _ ↦ htag (by decide)⟩
  split
  · next heq => exact .inr ⟨'n', rfl, fun _ ↦ heq, fun hw ↦ absurd rfl hw, fun _ ↦ htag (by decide)⟩
  split
  · next heq => exact .inr ⟨'r', rfl, fun _ ↦ heq, fun hw ↦ absurd rfl hw, fun _ ↦ htag (by decide)⟩
  split
  · next hascii =>
    refine .inr ⟨'x', rfl, fun hw ↦ absurd hw (by decide), fun _ ↦ ?_, fun _ ↦ htag (by decide)⟩
    show c.toNat < 256
    omega
  split
  · next hself _ _ _ _ _ => exact .inl ⟨rfl, fun heq ↦ hself (.inl heq), fun heq ↦ hself (.inr heq)⟩
  split
  · refine .inr ⟨'x', rfl, fun hw ↦ absurd hw (by decide), fun _ ↦ ?_, fun _ ↦ htag (by decide)⟩
    show c.toNat < 256
    omega
  split
  · refine .inr ⟨'u', rfl, fun hw ↦ absurd hw (by decide), fun _ ↦ ?_, fun _ ↦ htag (by decide)⟩
    show c.toNat < 65536
    omega
  · exact .inr ⟨'U', rfl, fun hw ↦ absurd hw (by decide), fun _ ↦ hlt, fun _ ↦ htag (by decide)⟩

/-- A character between quotes is read from the start of a text. -/
theorem escapeChar_append_inj (h : IsQuote quote)
    (heq : escapeChar isPrintable quote c ++ u = escapeChar isPrintable quote d ++ v) :
    c = d ∧ u = v := by
  rcases escapeChar_cases isPrintable h c with ⟨hc, _, hcb⟩ | ⟨tag, hc, hshort, hlt, _⟩ <;>
    rcases escapeChar_cases isPrintable h d with ⟨hd, _, hdb⟩ | ⟨tag', hd, hshort', hlt', _⟩ <;>
    rw [hc, hd] at heq
  · exact List.cons.inj heq
  · exact absurd (List.cons.inj heq).1 hcb
  · exact absurd (List.cons.inj heq).1.symm hdb
  · obtain ⟨rfl, hrest⟩ := List.cons.inj (List.cons.inj heq).2
    obtain ⟨hdigits, hrest⟩ := List.append_inj hrest (by simp)
    refine ⟨?_, hrest⟩
    by_cases hw : escapeWidth tag = 0
    · rw [hshort hw, hshort' hw]
    · exact Char.toNat_inj.mp (hexDigits_inj (hlt hw) (hlt' hw) hdigits)

theorem escaped_inj (h : IsQuote quote) {s t : List Char}
    (heq : escaped isPrintable quote s = escaped isPrintable quote t) : s = t := by
  have hne (c : Char) : escapeChar isPrintable quote c ≠ [] := by
    rcases escapeChar_cases isPrintable h c with ⟨hc, _⟩ | ⟨tag, hc, _⟩ <;> simp [hc]
  induction s generalizing t with
  | nil =>
    cases t with
    | nil => rfl
    | cons d t => exact absurd heq.symm (by simp [escaped, hne])
  | cons c s ih =>
    cases t with
    | nil => exact absurd heq (by simp [escaped, hne])
    | cons d t =>
      obtain ⟨rfl, hrest⟩ := escapeChar_append_inj h heq
      rw [ih hrest]

theorem not_mem_hexDigits (h : IsQuote quote) (width n : Nat) : quote ∉ hexDigits width n := by
  induction width generalizing n with
  | zero => exact List.not_mem_nil
  | succ width ih =>
    have hall : ∀ m < 16, Nat.digitChar m ≠ singleQuote ∧ Nat.digitChar m ≠ doubleQuote := by
      decide
    obtain ⟨hsingle, hdouble⟩ := hall (n % 16) (Nat.mod_lt n (by decide))
    have hdigit : Nat.digitChar (n % 16) ≠ quote := by
      rcases h with rfl | rfl
      · exact hsingle
      · exact hdouble
    simp [hexDigits, ih, hdigit.symm]

/-- A quote between the quotes is behind a backslash. -/
theorem escaped_escaped (h : IsQuote quote) (s : List Char) :
    Escaped '\\' quote (escaped isPrintable quote s) := by
  induction s with
  | nil => exact Escaped.of_not_mem List.not_mem_nil
  | cons c s ih =>
    refine Escaped.append ?_ ih
    by_cases hc : c = quote
    · subst hc
      rw [escapeChar, if_pos (.inl rfl)]
      intro r t heq
      cases r with
      | nil => exact absurd (List.cons.inj heq).1.symm h.ne_backslash
      | cons b r =>
        obtain ⟨rfl, heq⟩ := List.cons.inj heq
        have hr : r = [] := by
          have hlen := congrArg List.length heq
          simp at hlen
          exact List.length_eq_zero_iff.mp (by omega)
        exact ⟨[], by rw [hr, List.nil_append]⟩
    · apply Escaped.of_not_mem
      rcases escapeChar_cases isPrintable h c with ⟨heq, _⟩ | ⟨tag, heq, _, _, htag⟩
      · simpa [heq] using Ne.symm hc
      · simp [heq, h.ne_backslash, (htag hc).symm, not_mem_hexDigits h]

end Strings

/-! ### Reading scalars -/

section Scalars

variable {isPrintable : Char → Bool} {x y : PyScalar} {A B : List Char}

/-- The characters in front of which a value stands. -/
def Opening (c : Char) : Prop := c ∈ ['[', '(', '{', ' ']

/-- The characters in which values without parts do not end. -/
def Punctuation (c : Char) : Prop := c ∈ ['[', '(', '{', ' ', ',', ')', ']', '}']

theorem Opening.punctuation {c : Char} (h : Opening c) : Punctuation c := by
  simp only [Opening, Punctuation, List.mem_cons, List.not_mem_nil, or_false] at h ⊢
  grind

theorem not_opening_backslash : ¬ Opening '\\' := by
  simp [Opening]

/-- The characters of numbers and names. -/
def WordChar (c : Char) : Prop := c.isAlphanum ∨ c = '-'

theorem WordChar.not_punctuation {c : Char} (h : WordChar c) : ¬ Punctuation c := by
  rintro hp
  simp only [Punctuation, List.mem_cons, List.not_mem_nil, or_false] at hp
  rcases hp with rfl | rfl | rfl | rfl | rfl | rfl | rfl | rfl <;> revert h <;> simp [WordChar]

theorem WordChar.not_isQuote {c : Char} (h : WordChar c) : ¬ IsQuote c := by
  rintro (rfl | rfl) <;> revert h <;> simp [WordChar] <;> decide

theorem isDigit_of_mem_intText {i : Int} {c : Char} (h : c ∈ intText i) : c.isDigit ∨ c = '-' := by
  unfold intText at h
  split at h
  · rcases List.mem_cons.mp h with rfl | h
    · exact .inr rfl
    · exact .inl (Nat.isDigit_of_mem_toDigits (by decide) (by decide) h)
  · exact .inl (Nat.isDigit_of_mem_toDigits (by decide) (by decide) h)

theorem toDigits_inj {m n : Nat} (h : Nat.toDigits 10 m = Nat.toDigits 10 n) : m = n := by
  rw [← Nat.ofDigitChars_ten_toDigits (n := m), h, Nat.ofDigitChars_ten_toDigits]

theorem intText_inj {i j : Int} (h : intText i = intText j) : i = j := by
  have hsign {n : Nat} {t : List Char} : Nat.toDigits 10 n ≠ '-' :: t := by
    intro h
    have hdigit := Nat.isDigit_of_mem_toDigits (b := 10) (n := n) (c := '-') (by decide)
      (by decide) (h ▸ List.mem_cons_self)
    exact absurd hdigit (by decide)
  unfold intText at h
  split at h <;> split at h
  · have hdigits := toDigits_inj (List.cons.inj h).2
    omega
  · exact absurd h.symm hsign
  · exact absurd h hsign
  · have hdigits := toDigits_inj h
    omega

/-- The values that are written without quotes. -/
def PyScalar.IsWord (x : PyScalar) : Prop := ∀ s, x ≠ .str s

theorem wordChar_of_mem_text (h : x.IsWord) : ∀ c ∈ x.text isPrintable, WordChar c := by
  intro c hc
  cases x with
  | none =>
    have hall : ∀ c ∈ "None".toList, c.isAlphanum :=
      List.all_eq_true.mp (by decide)
    exact .inl (hall c hc)
  | bool b =>
    have hall : ∀ c ∈ "True".toList ++ "False".toList, c.isAlphanum :=
      List.all_eq_true.mp (by decide)
    cases b with
    | true => exact .inl (hall c (List.mem_append_left _ hc))
    | false => exact .inl (hall c (List.mem_append_right _ hc))
  | int i =>
    apply (isDigit_of_mem_intText hc).imp_left
    intro hdigit
    simp [Char.isAlphanum, hdigit]
  | str s => exact absurd rfl (h s)

theorem text_inj_of_isWord (hx : x.IsWord) (hy : y.IsWord)
    (h : x.text isPrintable = y.text isPrintable) : x = y := by
  have hname {i : Int} {c : Char} {t : List Char} (hc : ¬ (c.isDigit ∨ c = '-')) :
      intText i ≠ c :: t := by
    intro h
    exact hc (isDigit_of_mem_intText (h ▸ List.mem_cons_self))
  cases x with
  | none =>
    cases y with
    | none => rfl
    | bool b => cases b <;> exact absurd h (by simp [PyScalar.text])
    | int i => exact absurd h.symm (hname (by decide))
    | str s => exact absurd rfl (hy s)
  | bool b =>
    cases y with
    | none => cases b <;> exact absurd h (by simp [PyScalar.text])
    | bool b' =>
      cases b <;> cases b'
      · rfl
      · exact absurd h (by simp [PyScalar.text])
      · exact absurd h (by simp [PyScalar.text])
      · rfl
    | int i => cases b <;> exact absurd h.symm (hname (by decide))
    | str s => exact absurd rfl (hy s)
  | int i =>
    cases y with
    | none => exact absurd h (hname (by decide))
    | bool b => cases b <;> exact absurd h (hname (by decide))
    | int j => rw [intText_inj h]
    | str s => exact absurd rfl (hy s)
  | str s => exact absurd rfl (hx s)

theorem ends_word (h : x.IsWord) : Ends WordChar (x.text isPrintable) := by
  have hne : x.text isPrintable ≠ [] := by
    cases x with
    | none => exact List.cons_ne_nil _ _
    | bool b => cases b <;> exact List.cons_ne_nil _ _
    | int i =>
      show intText i ≠ []
      unfold intText
      split
      · exact List.cons_ne_nil _ _
      · exact Nat.toDigits_ne_nil
    | str s => exact absurd rfl (h s)
  refine ⟨_, _, (List.dropLast_append_getLast hne).symm, ?_⟩
  exact wordChar_of_mem_text h _ (List.getLast_mem hne)

theorem ends_strText (s : String) : Ends IsQuote (strText isPrintable s) :=
  ⟨_, _, rfl, isQuote_quoteOf _⟩

theorem IsQuote.not_punctuation {c : Char} (h : IsQuote c) : ¬ Punctuation c := by
  rcases h with rfl | rfl <;> simp [Punctuation] <;> decide

theorem PyScalar.isWord_or_str (x : PyScalar) : x.IsWord ∨ ∃ s, x = .str s := by
  cases x with
  | str s => exact .inr ⟨s, rfl⟩
  | none | bool _ | int _ => exact .inl nofun

/-- A scalar does not end in punctuation. -/
theorem ends_scalar (x : PyScalar) : Ends (fun c ↦ ¬ Punctuation c) (x.text isPrintable) := by
  rcases x.isWord_or_str with h | ⟨s, rfl⟩
  · exact (ends_word h).imp fun c hc ↦ hc.not_punctuation
  · exact (ends_strText s).imp fun c hc ↦ hc.not_punctuation

/-- A word is no string. -/
theorem word_ne_strText (h : x.IsWord) (s : String) :
    A ++ x.text isPrintable ≠ B ++ strText isPrintable s := by
  intro heq
  obtain ⟨c, hword, hquote⟩ := Ends.unique ((ends_word h).of_append (A := A))
    (heq ▸ (ends_strText s).of_append)
  exact hword.not_isQuote hquote

theorem strText_read {s t : String} (hA : Ends Opening A) (hB : Ends Opening B)
    (h : A ++ strText isPrintable s = B ++ strText isPrintable t) : A = B ∧ s = t := by
  unfold strText at h
  rw [← List.append_assoc, ← List.append_assoc] at h
  obtain ⟨hAB, hquote, hbody⟩ := quoted_inj not_opening_backslash
    (escaped_escaped (isQuote_quoteOf _) _) (escaped_escaped (isQuote_quoteOf _) _) hA hB h
  refine ⟨hAB, ?_⟩
  rw [← hquote] at hbody
  exact String.toList_inj.mp (escaped_inj (isQuote_quoteOf _) hbody)

/-- Scalars are read behind an opening character. -/
theorem readable_scalar (x : PyScalar) : Readable (Ends Opening) (PyScalar.text isPrintable) x := by
  intro y A B hA hB h
  have hopens {z : PyScalar} (hz : z.IsWord) : ∀ c ∈ z.text isPrintable, ¬ Opening c :=
    fun c hc ho ↦ (wordChar_of_mem_text hz c hc).not_punctuation ho.punctuation
  rcases x.isWord_or_str with hx | ⟨s, rfl⟩ <;> rcases y.isWord_or_str with hy | ⟨t, rfl⟩
  · obtain ⟨hAB, htext⟩ := word_inj (hopens hx) (hopens hy) hA hB h
    exact ⟨hAB, text_inj_of_isWord hx hy htext⟩
  · exact absurd h (word_ne_strText hx t)
  · exact absurd h.symm (word_ne_strText hy s)
  · obtain ⟨hAB, rfl⟩ := strText_read hA hB h
    exact ⟨hAB, rfl⟩

end Scalars

/-! ### Reading values -/

section Values

variable {isPrintable : Char → Bool} {A B : List Char}

/-- `repr` of an item of a dictionary. -/
def fieldText (isPrintable : Char → Bool) (f : PyScalar × PyValue) : List Char :=
  f.1.text isPrintable ++ [':', ' '] ++ f.2.text isPrintable

theorem itemTexts_eq (items : List PyValue) :
    itemTexts isPrintable items = items.map (PyValue.text isPrintable) := by
  induction items with
  | nil => rfl
  | cons v items ih => rw [itemTexts, ih, List.map_cons]

theorem fieldTexts_eq (items : List (PyScalar × PyValue)) :
    fieldTexts isPrintable items = items.map (fieldText isPrintable) := by
  induction items with
  | nil => rfl
  | cons f items ih => rw [fieldTexts, ih, List.map_cons, fieldText]

theorem text_list (items : List PyValue) : (PyValue.list items).text isPrintable =
    sequence '[' ',' ' ' (PyValue.text isPrintable) items ++ [']'] := by
  rw [PyValue.text, itemTexts_eq]
  rfl

theorem text_dict (items : List (PyScalar × PyValue)) : (PyValue.dict items).text isPrintable =
    sequence '{' ',' ' ' (fieldText isPrintable) items ++ ['}'] := by
  rw [PyValue.text, fieldTexts_eq]
  rfl

/-- A value ends neither in a character in front of a value nor in a comma. -/
def Closing (c : Char) : Prop := ¬ Opening c ∧ c ≠ ','

theorem closing_of_not_punctuation {c : Char} (h : ¬ Punctuation c) : Closing c :=
  ⟨fun ho ↦ h ho.punctuation, fun heq ↦ h (by simp [Punctuation, heq])⟩

theorem ends_value (v : PyValue) : Ends Closing (v.text isPrintable) := by
  cases v with
  | scalar s => exact (ends_scalar s).imp fun c hc ↦ closing_of_not_punctuation hc
  | list items => exact ⟨_, _, text_list items, by simp [Closing, Opening]⟩
  | dict items => exact ⟨_, _, text_dict items, by simp [Closing, Opening]⟩

theorem value_not_opening (v : PyValue) : Ends (fun c ↦ ¬ Opening c) (v.text isPrintable) :=
  (ends_value v).imp fun _ hc ↦ hc.1

theorem ends_fieldText (f : PyScalar × PyValue) :
    Ends (fun c ↦ ¬ Opening c) (fieldText isPrintable f) :=
  (value_not_opening f.2).of_append

/-- An item of a dictionary is read from its value to its key. -/
theorem readable_fieldText {f : PyScalar × PyValue}
    (h : Readable (Ends Opening) (PyValue.text isPrintable) f.2) :
    Readable (Ends Opening) (fieldText isPrintable) f := by
  intro g A B hA hB heq
  have hcolon {C : List Char} {x : PyScalar} :
      Ends Opening (C ++ x.text isPrintable ++ [':', ' ']) :=
    ⟨C ++ x.text isPrintable ++ [':'], ' ', by simp, by simp [Opening]⟩
  simp only [fieldText, ← List.append_assoc] at heq
  obtain ⟨hkey, hvalue⟩ := h g.2 _ _ hcolon hcolon heq
  obtain ⟨hAB, hkey⟩ := readable_scalar f.1 g.1 A B hA hB (List.append_cancel_right hkey)
  exact ⟨hAB, Prod.ext hkey hvalue⟩

/-- Values are read behind an opening character. -/
theorem readable_value (v : PyValue) :
    Readable (Ends Opening) (PyValue.text isPrintable) v := by
  -- A list or a dictionary is told from a scalar, and from each other, by its last character.
  have hscalar {A B : List Char} {s : PyScalar} {c : Char} {t : List Char} (hc : Punctuation c) :
      A ++ s.text isPrintable ≠ B ++ (t ++ [c]) := by
    intro heq
    have hlast : Ends (· = c) (B ++ (t ++ [c])) := Ends.of_append ⟨t, c, rfl, rfl⟩
    rw [← heq] at hlast
    obtain ⟨d, hd, rfl⟩ := (ends_scalar s).of_append.unique hlast
    exact hd hc
  induction v using PyValue.tree_induction with
  | scalar s =>
    intro y A B hA hB heq
    cases y with
    | scalar s' =>
      rw [PyValue.text, PyValue.text] at heq
      obtain ⟨hAB, rfl⟩ := readable_scalar s s' A B hA hB heq
      exact ⟨hAB, rfl⟩
    | list ys =>
      rw [PyValue.text, text_list] at heq
      exact absurd heq (hscalar (by simp [Punctuation]))
    | dict ys =>
      rw [PyValue.text, text_dict] at heq
      exact absurd heq (hscalar (by simp [Punctuation]))
  | list items ih =>
    intro y A B _ _ heq
    rw [text_list] at heq
    cases y with
    | scalar s =>
      rw [PyValue.text] at heq
      exact absurd heq.symm (hscalar (by simp [Punctuation]))
    | list ys =>
      rw [text_list, ← List.append_assoc, ← List.append_assoc] at heq
      obtain ⟨hAB, rfl⟩ := sequence_inj (p := Opening) (by simp [Opening]) (by simp [Opening])
        (by decide) value_not_opening ih (concat_inj.mp heq).1
      exact ⟨hAB, rfl⟩
    | dict ys =>
      rw [text_dict, ← List.append_assoc, ← List.append_assoc] at heq
      exact absurd (concat_inj.mp heq).2 (by decide)
  | dict items ih =>
    intro y A B _ _ heq
    rw [text_dict] at heq
    cases y with
    | scalar s =>
      rw [PyValue.text] at heq
      exact absurd heq.symm (hscalar (by simp [Punctuation]))
    | list ys =>
      rw [text_list, ← List.append_assoc, ← List.append_assoc] at heq
      exact absurd (concat_inj.mp heq).2 (by decide)
    | dict ys =>
      rw [text_dict, ← List.append_assoc, ← List.append_assoc] at heq
      obtain ⟨hAB, rfl⟩ := sequence_inj (p := Opening) (by simp [Opening]) (by simp [Opening])
        (by decide) ends_fieldText (fun f hf ↦ readable_fieldText (ih f hf)) (concat_inj.mp heq).1
      exact ⟨hAB, rfl⟩

theorem tupleText_eq (items : List PyValue) : tupleText isPrintable items =
    sequence '(' ',' ' ' (PyValue.text isPrintable) items ++
      (if items.length = 1 then [','] else []) ++ [')'] := by
  unfold tupleText
  split
  · simp [TextsFromEnd.sequence, List.intercalate_singleton]
  · next hne =>
    have hlength : items.length ≠ 1 := fun h ↦ by
      obtain ⟨v, rfl⟩ := List.length_eq_one_iff.mp h
      exact hne v rfl
    rw [if_neg hlength, List.append_nil]
    rfl

/-- Tuples are read behind every text. -/
theorem tupleText_read {xs ys : List PyValue}
    (h : A ++ tupleText isPrintable xs = B ++ tupleText isPrintable ys) : A = B ∧ xs = ys := by
  -- The comma of a single item is no part of an item.
  have hcomma {C D : List Char} {zs : List PyValue} :
      C ++ sequence '(' ',' ' ' (PyValue.text isPrintable) zs ≠ D ++ [','] := by
    intro heq
    have hlast : Ends (· ≠ ',') (C ++ sequence '(' ',' ' ' (PyValue.text isPrintable) zs) := by
      rcases List.eq_nil_or_concat' zs with rfl | ⟨zs, z, rfl⟩
      · exact ⟨C, '(', rfl, by decide⟩
      · rw [sequence_concat]
        exact ((ends_value z).of_append.imp fun _ hc ↦ hc.2).of_append
    obtain ⟨c, hc, rfl⟩ := hlast.unique ⟨D, ',', heq, rfl⟩
    exact hc rfl
  simp only [tupleText_eq, ← List.append_assoc] at h
  have h := (concat_inj.mp h).1
  have hsequence : A ++ sequence '(' ',' ' ' (PyValue.text isPrintable) xs =
      B ++ sequence '(' ',' ' ' (PyValue.text isPrintable) ys := by
    split at h <;> split at h
    · exact List.append_cancel_right h
    · rw [List.append_nil] at h
      exact absurd h.symm hcomma
    · rw [List.append_nil] at h
      exact absurd h hcomma
    · simpa using h
  exact sequence_inj (p := Opening) (by simp [Opening]) (by simp [Opening]) (by decide)
    value_not_opening (fun v _ ↦ readable_value v) hsequence

end Values

end JobWorker
