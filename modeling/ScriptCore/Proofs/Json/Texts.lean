import ScriptCore.Proofs.Number.Texts
import ScriptCore.Template

/-!
# JSON text that is read back

A text **is read as** a value if reading takes just that text, with enough fuel, and leaves what
stands behind it, where that does not go on with a number (`Written.Reads`). What is written here is
read so: a quoted text (`Written.reads_quote`), a natural number (`Written.reads_natural`), a truth
value, an array of things that are read (`Written.reads_bracketed`) and an object of such things
(`Written.reads_object`). The fuel that a text needs is no more than its length, as each value and
each comma has a character of its own.
-/

namespace ScriptCore

namespace Written

variable {c e : Char} {cs rest : List Char} {fuel n : Nat} {w : Written} {α : Type}

/-! ## Strings -/

theorem hexDigit?_digitChar : ∀ d < 16, Numeral.hexDigit? (Nat.digitChar d) = some d := by decide

theorem unit?_digitChar (hn : n < 0x20) :
    unit? '0' '0' (Nat.digitChar (n / 16)) (Nat.digitChar (n % 16)) = some n := by
  have hzero : Numeral.hexDigit? '0' = some 0 := by decide
  have hhigh := hexDigit?_digitChar (n / 16) (by omega)
  have hlow := hexDigit?_digitChar (n % 16) (Nat.mod_lt _ (by decide))
  simp only [unit?, hzero, hhigh, hlow, Option.bind_eq_bind, Option.bind_some, Option.pure_def]
  congr 1
  omega

def lettered : List Char := ['\x08', '\x0c', '\n', '\r', '\t']

def pieceOf (c : Char) : Piece :=
  if c.toNat < 0x20 ∧ c ∉ lettered then .unit c.toNat else .char c

theorem pieces_of_escaped? (he : escaped? e = some c) :
    pieces ('\\' :: e :: rest) = (pieces rest).map fun p => (.char c :: p.1, p.2) := by
  have hu : e ≠ 'u' := by
    rintro rfl
    cases he
  rw [pieces.eq_def]
  split
  · next h => cases h
  · next h => cases h
  · next h => exact absurd (List.cons.inj (List.cons.inj h).2).1 hu
  · next h =>
    obtain ⟨rfl, rfl⟩ := List.cons.inj (List.cons.inj h).2
    rw [he]
    cases pieces rest <;> rfl
  · next hescape h =>
    obtain ⟨hc, hrest⟩ := List.cons.inj h
    exact (hescape e rest hc.symm hrest.symm).elim

theorem pieces_of_not_control (hq : c ≠ '"') (hb : c ≠ '\\') (hc : ¬c.toNat < 0x20) :
    pieces (c :: rest) = (pieces rest).map fun p => (.char c :: p.1, p.2) := by
  rw [pieces.eq_def]
  split
  · next h => cases h
  · next h => exact absurd (List.cons.inj h).1 hq
  · next h => exact absurd (List.cons.inj h).1 hb
  · next h => exact absurd (List.cons.inj h).1 hb
  · next h =>
    obtain ⟨rfl, rfl⟩ := List.cons.inj h
    rw [if_neg hc]
    cases pieces rest <;> rfl

theorem pieces_quoteChar (c : Char) (rest : List Char) :
    pieces (Json.quoteChar c ++ rest) = (pieces rest).map fun p => (pieceOf c :: p.1, p.2) := by
  unfold Json.quoteChar
  split_ifs with hquote hslash hback hfeed hline hreturn htab hcontrol
  · subst hquote
    exact pieces_of_escaped? rfl
  · subst hslash
    exact pieces_of_escaped? rfl
  · subst hback
    exact pieces_of_escaped? rfl
  · subst hfeed
    exact pieces_of_escaped? rfl
  · subst hline
    exact pieces_of_escaped? rfl
  · subst hreturn
    exact pieces_of_escaped? rfl
  · subst htab
    exact pieces_of_escaped? rfl
  · have hunit : pieceOf c = .unit c.toNat := if_pos ⟨hcontrol, by simp [lettered, *]⟩
    simp only [List.cons_append, List.nil_append]
    rw [pieces, unit?_digitChar hcontrol, hunit]
    cases pieces rest <;> rfl
  · have hchar : pieceOf c = .char c := if_neg fun h => hcontrol h.1
    rw [hchar]
    exact pieces_of_not_control hquote hslash hcontrol

theorem join_unit (hn : n < 0xD800) (ps : List Piece) :
    join (.unit n :: ps) = (join ps).map (Char.ofNat n :: ·) := by
  cases ps with
  | nil =>
    simp only [join]
    rw [if_neg (by omega)]
  | cons p ps =>
    cases p with
    | char c =>
      rw [join.eq_def]
      simp only
      rw [if_neg (by omega)]
    | unit low => rw [join, if_neg (by omega), if_neg (by omega)]

theorem join_pieceOf (c : Char) (ps : List Piece) :
    join (pieceOf c :: ps) = (join ps).map (c :: ·) := by
  unfold pieceOf
  split_ifs with hc
  · rw [join_unit (by omega), Char.ofNat_toNat]
  · rw [join]

theorem pieces_quoted (cs rest : List Char) :
    pieces (cs.flatMap Json.quoteChar ++ '"' :: rest) = some (cs.map pieceOf, rest) := by
  induction cs with
  | nil => rw [List.flatMap_nil, List.nil_append, pieces, List.map_nil]
  | cons c cs ih =>
    rw [List.flatMap_cons, List.append_assoc, pieces_quoteChar, ih]
    rfl

theorem join_map_pieceOf (cs : List Char) : join (cs.map pieceOf) = some cs := by
  induction cs with
  | nil => rfl
  | cons c cs ih => rw [List.map_cons, join_pieceOf, ih, Option.map_some]

/-- **A quoted text** is read back, whatever is in it. -/
theorem string?_quoted (s : String) (rest : List Char) :
    string? (s.toList.flatMap Json.quoteChar ++ '"' :: rest) = some (some s, rest) := by
  rw [string?, pieces_quoted, Option.map_some]
  simp only [join_map_pieceOf, Option.map_some, String.ofList_toList]

/-! ## Numbers -/

def natural (n : Nat) : Written := .number ⟨false, Nat.toDigits 10 n, none, none⟩

theorem count?_natural {limit : Nat} (hn : n < limit) : (natural n).count? limit = some n := by
  have hinteger : WrittenNumber.integer? ⟨false, Nat.toDigits 10 n, none, none⟩ = some n := by
    simp [WrittenNumber.integer?, WrittenNumber.isWhole, Nat.ofDigitChars_ten_toDigits]
  rw [natural, count?, WrittenNumber.count?, hinteger]
  simp [hn]

theorem head?_toDigits_ne_zero (hn : n ≠ 0) : (Nat.toDigits 10 n).head? ≠ some '0' := by
  induction n using Nat.strong_induction_on with
  | h n ih =>
    by_cases hlt : n < 10
    · rw [Nat.toDigits_of_lt_base hlt]
      interval_cases n <;> simp_all
    · rw [Nat.toDigits_of_base_le (by decide) (by omega),
        List.head?_append_of_ne_nil _ Nat.toDigits_ne_nil]
      exact ih (n / 10) (by omega) (by omega)

def Ends (rest : List Char) : Prop :=
  ∀ c ∈ rest.head?, c.isDigit = false ∧ c ≠ '.' ∧ c ≠ 'e' ∧ c ≠ 'E'

theorem ends_cons (hd : c.isDigit = false) (hp : c ≠ '.') (he : c ≠ 'e') (hE : c ≠ 'E') :
    Ends (c :: rest) := by
  rintro d hd'
  obtain rfl := Option.some.inj hd'
  exact ⟨hd, hp, he, hE⟩

theorem ends_comma : Ends (',' :: rest) := ends_cons rfl (by decide) (by decide) (by decide)

theorem ends_bracket : Ends (']' :: rest) := ends_cons rfl (by decide) (by decide) (by decide)

theorem ends_brace : Ends ('\x7d' :: rest) := ends_cons rfl (by decide) (by decide) (by decide)

theorem number?_of_ends {negative : Bool} {whole : List Char} (hd : digits? cs = some (whole, rest))
    (hz : ∀ after, cs = '0' :: after → whole = ['0'] ∧ after = rest) (hr : Ends rest) :
    number? negative cs = some (⟨negative, whole, none, none⟩, rest) := by
  have hpoint (after : List Char) : rest ≠ '.' :: after := by
    rintro rfl
    exact absurd rfl (hr '.' rfl).2.1
  have hlower (after : List Char) : rest ≠ 'e' :: after := by
    rintro rfl
    exact absurd rfl (hr 'e' rfl).2.2.1
  have hupper (after : List Char) : rest ≠ 'E' :: after := by
    rintro rfl
    exact absurd rfl (hr 'E' rfl).2.2.2
  -- What follows is none of the marks on which the number would go on.
  unfold number?
  split
  · next after =>
    obtain ⟨rfl, rfl⟩ := hz after rfl
    simp
  · simp [hd]

theorem number?_toDigits (n : Nat) (hr : Ends rest) :
    number? false (Nat.toDigits 10 n ++ rest) =
      some (⟨false, Nat.toDigits 10 n, none, none⟩, rest) := by
  obtain ⟨hne, hdigits⟩ := Numeral.digits_toDigits n
  refine number?_of_ends ?_ (fun after h => ?_) hr
  · rw [digits?, Numeral.spanDigits_append hdigits fun c hc => (hr c hc).1]
    split
    · next h => exact absurd (congrArg Prod.fst h) hne
    · rfl
  · have hn : n = 0 := by
      by_contra hn
      apply head?_toDigits_ne_zero hn
      rw [← List.head?_append_of_ne_nil _ hne, h, List.head?_cons]
    subst hn
    exact ⟨rfl, (List.cons.inj h).2.symm⟩

/-! ## Values -/

theorem skip_cons (hc : c ≠ ' ' ∧ c ≠ '\n' ∧ c ≠ '\t' ∧ c ≠ '\r') :
    skip (c :: cs) = c :: cs := by
  rw [skip, List.dropWhile_cons_of_neg]
  simp [hc]

theorem skip_skip (cs : List Char) : skip (skip cs) = skip cs := List.dropWhile_idempotent _ _

theorem value?_skip (fuel : Nat) (cs : List Char) : value? fuel (skip cs) = value? fuel cs := by
  cases fuel with
  | zero => rw [value?, value?]
  | succ fuel => rw [value?, value?, skip_skip]

theorem items?_skip (fuel : Nat) (cs : List Char) : items? fuel (skip cs) = items? fuel cs := by
  cases fuel with
  | zero => rw [items?, items?]
  | succ fuel => rw [items?, items?, value?_skip]

theorem value?_bracket (fuel : Nat) (cs : List Char) : value? fuel (']' :: cs) = none := by
  cases fuel with
  | zero => rw [value?]
  | succ fuel =>
    rw [value?, skip_cons (by decide)]
    rfl

/-- **A text is read as a value**, with what cannot go on with a number behind it. -/
def Reads (cs : List Char) (w : Written) : Prop :=
  ∀ fuel rest, cs.length ≤ fuel → Ends rest → value? fuel (cs ++ rest) = some (w, rest)

theorem value?_of_isDigit (hc : c.isDigit = true) :
    value? (fuel + 1) (c :: cs) = (number? false (c :: cs)).map fun p => (.number p.1, p.2) := by
  have hne {d : Char} (hd : d.isDigit = false) : c ≠ d := by
    rintro rfl
    exact absurd hc (hd ▸ Bool.false_ne_true)
  rw [value?, skip_cons ⟨hne rfl, hne rfl, hne rfl, hne rfl⟩]
  split
  case h_8 => rfl
  -- No other kind of value begins with a digit.
  all_goals next h => exact absurd (List.cons.inj h).1 (hne rfl)

theorem reads_natural (n : Nat) : Reads (Nat.toDigits 10 n) (natural n) := by
  intro fuel rest hfuel hr
  obtain ⟨hne, hdigits⟩ := Numeral.digits_toDigits n
  have hnumber := number?_toDigits n hr
  cases hcs : Nat.toDigits 10 n with
  | nil => exact absurd hcs hne
  | cons c cs =>
    rw [hcs] at hnumber hfuel
    cases fuel with
    | zero => cases hfuel
    | succ fuel =>
      rw [List.cons_append] at hnumber ⊢
      rw [value?_of_isDigit (hdigits c (hcs ▸ List.mem_cons_self)), hnumber, natural, hcs]
      rfl

theorem reads_boolean (b : Bool) :
    Reads (if b then "true".toList else "false".toList) (.boolean b) := by
  intro fuel rest hfuel hr
  cases b <;> cases fuel with
  | zero => cases hfuel
  | succ fuel => rfl

theorem reads_quote (s : String) : Reads (Json.quote s) (.string s) := by
  intro fuel rest hfuel hr
  cases fuel with
  | zero => cases hfuel
  | succ fuel =>
    have hstring := string?_quoted s rest
    rw [Json.quote, List.cons_append, List.cons_append, List.append_assoc, value?,
      skip_cons (by decide)]
    simp only [List.cons_append, List.nil_append, hstring, Option.map_some]

/-! ## Lists -/

open Template (entry)

section Steps

variable {ws : List Written} {entries : List (Option String × Written)} {key : String}
  {value more : List Char}

theorem items?_last (hw : value? fuel cs = some (w, ']' :: rest)) :
    items? (fuel + 1) cs = some ([w], rest) := by
  rw [items?, hw]
  simp [skip_cons]

theorem items?_next (hw : value? fuel cs = some (w, ',' :: more))
    (hmore : items? fuel more = some (ws, rest)) :
    items? (fuel + 1) cs = some (w :: ws, rest) := by
  rw [items?, hw]
  simp [skip_cons, hmore]

theorem value?_of_items? (hitems : items? fuel cs = some (ws, rest)) :
    value? (fuel + 1) ('[' :: cs) = some (.array ws, rest) := by
  rw [← items?_skip] at hitems
  rw [value?, skip_cons (by decide)]
  simp only
  split
  · next after h =>
    rw [h] at hitems
    cases fuel with
    | zero =>
      rw [items?] at hitems
      cases hitems
    | succ fuel =>
      rw [items?, value?_bracket] at hitems
      cases hitems
  · rw [hitems]
    rfl

theorem entry_append : entry key value ++ rest =
    '"' :: (key.toList.flatMap Json.quoteChar ++ '"' :: ':' :: (value ++ rest)) := by
  simp [entry, Json.quote]

theorem length_lt_entry : value.length < (entry key value).length := by
  rw [entry, List.length_append, List.length_cons]
  omega

theorem entries?_last (hw : value? fuel (value ++ '\x7d' :: rest) = some (w, '\x7d' :: rest)) :
    entries? (fuel + 1) (entry key value ++ '\x7d' :: rest) = some ([(some key, w)], rest) := by
  rw [entries?, entry_append, skip_cons (by decide)]
  simp [string?_quoted, skip_cons, hw]

theorem entries?_next (hw : value? fuel (value ++ ',' :: more) = some (w, ',' :: more))
    (hmore : entries? fuel more = some (entries, rest)) :
    entries? (fuel + 1) (entry key value ++ ',' :: more) =
      some ((some key, w) :: entries, rest) := by
  rw [entries?, entry_append, skip_cons (by decide)]
  simp [string?_quoted, skip_cons, hw, hmore]

theorem value?_of_entries?
    (hentries : entries? fuel (entry key value ++ cs) = some (entries, rest)) :
    value? (fuel + 1) ('\x7b' :: (entry key value ++ cs)) = some (.object entries, rest) := by
  rw [entry_append] at hentries ⊢
  rw [value?, skip_cons (by decide)]
  simp [skip_cons, hentries]

end Steps

/-- **Things with commas between them are read** up to what closes them, if each of them is read where
it is the last and where a comma and more come after it. -/
theorem read_separated {β : Type} {read : Nat → List Char → Option (List β × List Char)}
    {write : α → List Char} {value : α → β} {close : Char} {items : List α}
    (hlast : ∀ a ∈ items, ∀ fuel rest, (write a).length ≤ fuel →
      read (fuel + 1) (write a ++ close :: rest) = some ([value a], rest))
    (hnext : ∀ a ∈ items, ∀ fuel more bs rest, (write a).length ≤ fuel →
      read fuel more = some (bs, rest) →
        read (fuel + 1) (write a ++ ',' :: more) = some (value a :: bs, rest))
    (hne : items ≠ []) : ∀ fuel rest, (Json.separated (items.map write)).length < fuel →
      read fuel (Json.separated (items.map write) ++ close :: rest) =
        some (items.map value, rest) := by
  induction items with
  | nil => exact absurd rfl hne
  | cons a items ih =>
    intro fuel rest hfuel
    obtain ⟨fuel, rfl⟩ : ∃ m, fuel = m + 1 := Nat.exists_eq_add_one.mpr (by omega)
    cases items with
    | nil => exact hlast a List.mem_cons_self fuel rest (Nat.le_of_lt_succ hfuel)
    | cons b items =>
      have hrest := ih (fun x hx => hlast x (List.mem_cons_of_mem _ hx))
        (fun x hx => hnext x (List.mem_cons_of_mem _ hx)) (List.cons_ne_nil _ _) fuel rest
      simp only [List.map_cons, Json.separated, List.length_append, List.length_cons,
        List.append_assoc, List.cons_append] at hfuel hrest ⊢
      exact hnext a List.mem_cons_self fuel _ _ rest (by omega) (hrest (by omega))

variable {text : α → List Char} {value : α → Written} {items : List α}

theorem items?_separated (hi : ∀ a ∈ items, Reads (text a) (value a)) (hne : items ≠ []) :
    ∀ fuel rest, (Json.separated (items.map text)).length < fuel →
      items? fuel (Json.separated (items.map text) ++ ']' :: rest) =
        some (items.map value, rest) := by
  refine read_separated (fun a hm fuel rest hfuel => ?_) (fun a hm fuel more ws rest hfuel => ?_) hne
  · exact items?_last (hi a hm fuel _ hfuel ends_bracket)
  · exact items?_next (hi a hm fuel _ hfuel ends_comma)

/-- **A written array** is read back if its items are. -/
theorem reads_bracketed (hi : ∀ a ∈ items, Reads (text a) (value a)) :
    Reads (Json.bracketed (items.map text)) (.array (items.map value)) := by
  intro fuel rest hfuel hr
  cases fuel with
  | zero => cases hfuel
  | succ fuel =>
    rw [Json.bracketed, List.cons_append, List.cons_append, List.append_assoc]
    by_cases hne : items = []
    · subst hne
      rfl
    · apply value?_of_items?
      apply items?_separated hi hne
      simpa [Json.bracketed] using hfuel

theorem entries?_separated (key : α → String) (hi : ∀ a ∈ items, Reads (text a) (value a))
    (hne : items ≠ []) : ∀ fuel rest,
      (Json.separated (items.map fun a => entry (key a) (text a))).length < fuel →
        entries? fuel
          (Json.separated (items.map fun a => entry (key a) (text a)) ++ '\x7d' :: rest) =
            some (items.map fun a => (some (key a), value a), rest) := by
  refine read_separated (fun a hm fuel rest hfuel => ?_) (fun a hm fuel more es rest hfuel => ?_) hne
  · exact entries?_last (hi a hm fuel _ (length_lt_entry.le.trans hfuel) ends_brace)
  · exact entries?_next (hi a hm fuel _ (length_lt_entry.le.trans hfuel) ends_comma)

theorem separated_cons (a : List Char) (items : List (List Char)) :
    ∃ rest, Json.separated (a :: items) = a ++ rest := by
  cases items with
  | nil => exact ⟨[], by rw [Json.separated, List.append_nil]⟩
  | cons b items => exact ⟨_, rfl⟩

/-- **A written object** is read back if the values in it are. -/
theorem reads_object (key : α → String) (hi : ∀ a ∈ items, Reads (text a) (value a))
    (hne : items ≠ []) :
    Reads ('\x7b' :: Json.separated (items.map fun a => entry (key a) (text a)) ++ ['\x7d'])
      (.object (items.map fun a => (some (key a), value a))) := by
  intro fuel rest hfuel hr
  cases fuel with
  | zero => cases hfuel
  | succ fuel =>
    have hentries := entries?_separated key hi hne fuel rest (by simpa using hfuel)
    cases items with
    | nil => exact absurd rfl hne
    | cons a items =>
      obtain ⟨more, hmore⟩ := separated_cons (entry (key a) (text a))
        (items.map fun a => entry (key a) (text a))
      rw [List.map_cons, hmore, List.append_assoc] at hentries
      rw [List.map_cons, hmore, List.cons_append, List.cons_append, List.append_assoc,
        List.append_assoc]
      exact value?_of_entries? hentries

/-- **A whole text** is read as what it is read as with something behind it. -/
theorem ofText_of_reads (hw : Reads cs w) : ofText (String.ofList cs) = some w := by
  have h := hw (2 * cs.length + 2) [] (by omega) (by rintro c ⟨⟩)
  rw [List.append_nil] at h
  rw [ofText, String.toList_ofList]
  simp only [h]
  rfl

end Written

end ScriptCore
