import Mathlib.Data.List.Basic
import Mathlib.Data.List.Nodup

/-!
# Support — XML

XML 1.0 documents without prefixes, comments, processing instructions, `CDATA` sections or a document
type: what an element holds (`Content`), how it is written and how a document is read.  What the
reader does not know, it refuses.

* `normalize`: a reader takes every line end, `"\r\n"` or `"\r"`, for `"\n"`, before anything else.
* `charData_escape`: an escaped text is read as the text.
* `content_render`: what is written is read back, element by element.
* `parse_document`: a document is read back with its line ends normalised.
* `fromstring_legal`: what is read of any text can be written again.
-/

namespace Support.Xml

/-! ### Characters -/

/-- `Char`: the characters a document may have. -/
def isChar (c : Char) : Bool :=
  c == '\t' || c == '\n' || c == '\r' ||
    decide (0x20 ≤ c.toNat) && c.toNat != 0xFFFE && c.toNat != 0xFFFF

/-- `S`: white space. -/
def isSpace (c : Char) : Bool := c == ' ' || c == '\t' || c == '\n' || c == '\r'

/-- The characters of a name, of the ASCII ones. -/
def isNameChar (c : Char) : Bool := c.isAlphanum || c == '_' || c == '-' || c == '.'

def isName (cs : List Char) : Bool :=
  match cs with
  | [] => false
  | c :: _ => (c.isAlpha || c == '_') && cs.all isNameChar

/-- Line ends, behind a `'\r'` or not. -/
def normalizeFrom (afterCr : Bool) : List Char → List Char
  | [] => []
  | c :: cs =>
      if c = '\r' then '\n' :: normalizeFrom true cs
      else if afterCr && c == '\n' then normalizeFrom false cs
      else c :: normalizeFrom false cs

/-- Every line end is one `'\n'`. -/
def normalize (cs : List Char) : List Char := normalizeFrom false cs

/-! ### Documents -/

abbrev Attributes := List (List Char × List Char)

/-- What an element holds: nothing more, characters, or an element and what follows it. -/
inductive Content where
  | nil
  | text (cs : List Char) (rest : Content)
  | element (tag : List Char) (attrs : Attributes) (inner rest : Content)
deriving DecidableEq, Repr

structure Element where
  tag : List Char
  attrs : Attributes
  inner : Content
deriving DecidableEq, Repr

/-- `xml.sax.saxutils.escape`. -/
def escapeChar : Char → List Char
  | '&' => ['&', 'a', 'm', 'p', ';']
  | '<' => ['&', 'l', 't', ';']
  | '>' => ['&', 'g', 't', ';']
  | c => [c]

def escape (cs : List Char) : List Char := cs.flatMap escapeChar

def renderAttr (a : List Char × List Char) : List Char := ' ' :: a.1 ++ '=' :: '"' :: a.2 ++ ['"']

def startTag (tag : List Char) (attrs : Attributes) : List Char :=
  '<' :: tag ++ attrs.flatMap renderAttr ++ ['>']

def endTag (tag : List Char) : List Char := '<' :: '/' :: tag ++ ['>']

def Content.render : Content → List Char
  | .nil => []
  | .text cs rest => escape cs ++ rest.render
  | .element tag attrs inner rest =>
      startTag tag attrs ++ inner.render ++ endTag tag ++ rest.render

def Element.content (e : Element) : Content := .element e.tag e.attrs e.inner .nil

/-- `<?xml version="1.0" encoding="UTF-8"?>` -/
def declaration : List Char := "<?xml version=\"1.0\" encoding=\"UTF-8\"?>".toList

def Element.document (e : Element) : List Char := declaration ++ e.content.render

/-! ### The reader -/

/-- What a reference stands for. -/
def entity : List Char → Option Char
  | ['a', 'm', 'p'] => some '&'
  | ['l', 't'] => some '<'
  | ['g', 't'] => some '>'
  | ['q', 'u', 'o', 't'] => some '"'
  | ['a', 'p', 'o', 's'] => some '\''
  | '#' :: 'x' :: ds => number 16 ds
  | '#' :: ds => number 10 ds
  | _ => none
where
  digit (c : Char) : Nat :=
    if c.isDigit then c.toNat - '0'.toNat
    else if c.isUpper then c.toNat - 'A'.toNat + 10
    else if c.isLower then c.toNat - 'a'.toNat + 10
    else 36
  /-- A character reference; only to a character that may stand in a document. -/
  number (base : Nat) (ds : List Char) : Option Char :=
    let n := ds.foldl (fun n d => n * base + digit d) 0
    if ds.isEmpty || ds.any (fun d => decide (base ≤ digit d)) || !decide n.isValidChar ||
        !isChar (Char.ofNat n) then none
    else some (Char.ofNat n)

/-- Character data up to the next tag; `some name` is inside a reference. -/
def charData : Option (List Char) → List Char → Option (List Char × List Char)
  | none, [] => some ([], [])
  | some _, [] => none
  | none, c :: cs =>
      if c = '<' then some ([], c :: cs)
      else if c = '&' then charData (some []) cs
      else if !isChar c || c == ']' && [']', '>'].isPrefixOf cs then none
      else (charData none cs).map fun r => (c :: r.1, r.2)
  | some name, c :: cs =>
      if c = ';' then (entity name).bind fun d => (charData none cs).map fun r => (d :: r.1, r.2)
      else charData (some (name ++ [c])) cs

/-- A name and what follows it. -/
def readName (cs : List Char) : Option (List Char × List Char) :=
  let name := cs.takeWhile isNameChar
  if isName name then some (name, cs.dropWhile isNameChar) else none

/-- An attribute's value, up to its quote. -/
def readValue (quote : Char) (cs : List Char) : Option (List Char × List Char) :=
  let value := cs.takeWhile (· != quote)
  match cs.dropWhile (· != quote) with
  | _ :: rest =>
      if value.all fun c => isChar c && c != '<' && c != '&' && (c == ' ' || !isSpace c) then
        some (value, rest)
      else none
  | [] => none

/-- One attribute. -/
def readAttr (cs : List Char) : Option ((List Char × List Char) × List Char) :=
  (readName cs).bind fun r => match r.2 with
    | '=' :: quote :: rest =>
        if quote = '"' ∨ quote = '\'' then (readValue quote rest).map fun v => ((r.1, v.1), v.2)
        else none
    | _ => none

/-- The attributes of a start tag up to its end, and whether that is the element's. -/
def readAttrs : Nat → List Char → Option (Attributes × Bool × List Char)
  | 0, _ => none
  | fuel + 1, cs =>
      match cs.dropWhile isSpace with
      | '>' :: rest => some ([], false, rest)
      | '/' :: '>' :: rest => some ([], true, rest)
      | rest =>
          if cs.head?.any isSpace then
            (readAttr rest).bind fun a => (readAttrs fuel a.2).map fun r => (a.1 :: r.1, r.2)
          else none

/-- The end tag of an element. -/
def readEnd (tag cs : List Char) : Option (List Char) :=
  match cs with
  | '<' :: '/' :: cs => do
      let (name, rest) ← readName cs
      match rest.dropWhile isSpace with
      | '>' :: rest => if name = tag then some rest else none
      | _ => none
  | _ => none

/-- What an element holds, up to its end tag. -/
def readContent : Nat → List Char → Option (Content × List Char)
  | 0, _ => none
  | _ + 1, [] => some (.nil, [])
  | fuel + 1, c :: cs =>
      if c ≠ '<' then do
        let (text, cs) ← charData none (c :: cs)
        let (rest, cs) ← readContent fuel cs
        some (.text text rest, cs)
      else if cs.head? = some '/' then some (.nil, c :: cs)
      else do
        let (tag, cs) ← readName cs
        let (attrs, closed, cs) ← readAttrs (cs.length + 1) cs
        if (attrs.map Prod.fst).Nodup then
          (if closed then some (.nil, cs)
            else (readContent fuel cs).bind fun r => (readEnd tag r.2).map fun cs => (r.1, cs)).bind
              fun r => (readContent fuel r.2).map fun s => (.element tag attrs r.1 s.1, s.2)
        else none

/-- Nothing but white space. -/
def Content.isBlank : Content → Bool
  | .nil => true
  | .text cs .nil => cs.all isSpace
  | _ => false

/-- The document element of a text. -/
def parse (text : List Char) : Option Element :=
  let cs := normalize text
  let cs := if declaration.isPrefixOf cs then cs.drop declaration.length else cs
  match readContent (cs.length + 1) (cs.dropWhile isSpace) with
  | some (.element tag attrs inner rest, []) => if rest.isBlank then some ⟨tag, attrs, inner⟩ else none
  | _ => none

/-! ### Character data -/

section CharData

variable {c : Char} {cs rest : List Char}

/-- Nothing follows but a tag. -/
def AtTag (cs : List Char) : Prop := ∀ c ∈ cs.head?, c = '<'

theorem escapeChar_of_ne (h₁ : c ≠ '&') (h₂ : c ≠ '<') (h₃ : c ≠ '>') : escapeChar c = [c] := by
  unfold escapeChar
  split
  · exact absurd rfl h₁
  · exact absurd rfl h₂
  · exact absurd rfl h₃
  · rfl

@[simp] theorem escape_nil : escape [] = [] := rfl

theorem escape_cons : escape (c :: cs) = escapeChar c ++ escape cs := rfl

theorem escape_append (xs ys : List Char) : escape (xs ++ ys) = escape xs ++ escape ys :=
  List.flatMap_append

theorem head_escapeChar (c : Char) : (escapeChar c).head? = some '&' ∨ escapeChar c = [c] ∧ c ≠ '>' := by
  unfold escapeChar
  split
  · exact .inl rfl
  · exact .inl rfl
  · exact .inl rfl
  · next h => exact .inr ⟨rfl, h⟩

/-- An escaped text does not start a tag. -/
theorem escape_starts (hne : cs ≠ []) : ∃ d ds, escape cs = d :: ds ∧ d ≠ '<' := by
  cases cs with
  | nil => exact absurd rfl hne
  | cons c cs =>
      rw [escape_cons]
      unfold escapeChar
      split
      · exact ⟨_, _, rfl, by decide⟩
      · exact ⟨_, _, rfl, by decide⟩
      · exact ⟨_, _, rfl, by decide⟩
      · next h _ => exact ⟨_, _, rfl, h⟩

/-- An escaped text does not go on with `'>'`. -/
theorem not_gt_escape (hrest : AtTag rest) : ∀ xs, escape cs ++ rest ≠ '>' :: xs := by
  intro xs h
  cases cs with
  | nil =>
      rw [escape_nil, List.nil_append] at h
      exact absurd (hrest '>' (by rw [h]; rfl)) (by decide)
  | cons c cs =>
      have hhead := congrArg List.head? h
      rw [escape_cons, List.append_assoc] at hhead
      rcases head_escapeChar c with hc | ⟨hc, hne⟩
      · rw [List.head?_append, hc] at hhead
        cases hhead
      · rw [hc] at hhead
        exact hne (Option.some.inj hhead)

/-- Nor with `"]>"`. -/
theorem not_prefix_escape (hrest : AtTag rest) :
    [']', '>'].isPrefixOf (escape cs ++ rest) = false := by
  rw [Bool.eq_false_iff, ne_eq, List.isPrefixOf_iff_prefix]
  rintro ⟨xs, h⟩
  cases cs with
  | nil =>
      rw [escape_nil, List.nil_append] at h
      exact absurd (hrest ']' (by rw [← h]; rfl)) (by decide)
  | cons c cs =>
      rw [escape_cons, List.append_assoc] at h
      rcases head_escapeChar c with hc | ⟨hc, -⟩
      · have hhead := congrArg List.head? h.symm
        rw [List.head?_append, hc] at hhead
        cases hhead
      · rw [hc] at h
        exact not_gt_escape hrest xs (List.cons.inj h).2.symm

/-- **An escaped text is read as the text.** -/
theorem charData_escape (hcs : ∀ c ∈ cs, isChar c = true) (hrest : AtTag rest) :
    charData none (escape cs ++ rest) = some (cs, rest) := by
  induction cs with
  | nil =>
      cases rest with
      | nil => rfl
      | cons c rest =>
          obtain rfl := hrest c rfl
          rfl
  | cons c cs ih =>
      have ih := ih fun d hd => hcs d (List.mem_cons_of_mem _ hd)
      have hc := hcs c List.mem_cons_self
      rw [escape_cons]
      by_cases h₁ : c = '&'
      · subst h₁
        simp [escapeChar, charData, entity, ih]
      by_cases h₂ : c = '<'
      · subst h₂
        simp [escapeChar, charData, entity, ih]
      by_cases h₃ : c = '>'
      · subst h₃
        simp [escapeChar, charData, entity, ih]
      have hplain : (!isChar c || c == ']' && [']', '>'].isPrefixOf (escape cs ++ rest)) = false := by
        rw [hc, not_prefix_escape hrest, Bool.and_false]
        rfl
      rw [escapeChar_of_ne h₁ h₂ h₃, List.singleton_append, List.cons_append, charData, if_neg h₂,
        if_neg h₁, hplain, ih]
      rfl

end CharData

/-! ### Tags -/

section Tags

variable {c : Char} {cs rest tag : List Char} {attrs : Attributes}

/-- What a value in double quotes may have. -/
def isValueChar (c : Char) : Bool :=
  isChar c && c != '<' && c != '&' && (c == ' ' || !isSpace c) && c != '"'

/-- Attributes that can be written. -/
def AttrsOk (attrs : Attributes) : Prop :=
  (attrs.map Prod.fst).Nodup ∧ ∀ a ∈ attrs, isName a.1 = true ∧ a.2.all isValueChar = true

/-- Nothing follows that would belong to a name. -/
def NameEnds (cs : List Char) : Prop := ∀ c ∈ cs.head?, isNameChar c = false

theorem isName_all (h : isName tag = true) : ∀ c ∈ tag, isNameChar c = true := by
  unfold isName at h
  split at h
  · cases h
  · exact List.all_eq_true.mp (Bool.and_eq_true_iff.mp h).2

theorem isName_ne_nil (h : isName tag = true) : tag ≠ [] := by
  rintro rfl
  cases h

theorem isSpace_of_name (h : isNameChar c = true) : isSpace c = false := by
  rw [Bool.eq_false_iff]
  intro hspace
  simp only [isSpace, Bool.or_eq_true, beq_iff_eq] at hspace
  rcases hspace with ((rfl | rfl) | rfl) | rfl <;> cases h

theorem span_append {p : Char → Bool} (hcs : ∀ c ∈ cs, p c = true)
    (hrest : ∀ c ∈ rest.head?, p c = false) :
    (cs ++ rest).takeWhile p = cs ∧ (cs ++ rest).dropWhile p = rest := by
  rw [List.takeWhile_append_of_pos hcs, List.dropWhile_append_of_pos hcs]
  cases rest with
  | nil => exact ⟨by simp, rfl⟩
  | cons c rest =>
      have hc := hrest c rfl
      rw [List.takeWhile_cons_of_neg (by simp [hc]), List.dropWhile_cons_of_neg (by simp [hc])]
      exact ⟨List.append_nil cs, rfl⟩

theorem readName_append (htag : isName tag = true) (hrest : NameEnds rest) :
    readName (tag ++ rest) = some (tag, rest) := by
  obtain ⟨htake, hdrop⟩ := span_append (isName_all htag) hrest
  rw [readName, htake, hdrop, if_pos htag]

theorem readEnd_endTag (htag : isName tag = true) : readEnd tag (endTag tag ++ rest) = some rest := by
  have hname : readName (tag ++ '>' :: rest) = some (tag, '>' :: rest) :=
    readName_append htag (by rintro c ⟨⟩; decide)
  simp only [endTag, List.cons_append, List.append_assoc, List.nil_append, readEnd]
  rw [hname]
  simp [isSpace]

theorem readValue_append {value : List Char} (hvalue : value.all isValueChar = true) :
    readValue '"' (value ++ '"' :: rest) = some (value, rest) := by
  have hall := List.all_eq_true.mp hvalue
  obtain ⟨htake, hdrop⟩ : (value ++ '"' :: rest).takeWhile (· != '"') = value ∧
      (value ++ '"' :: rest).dropWhile (· != '"') = '"' :: rest :=
    span_append (fun c hc => (Bool.and_eq_true_iff.mp (hall c hc)).2) (by rintro c ⟨⟩; rfl)
  simp only [readValue, htake, hdrop]
  rw [if_pos]
  exact List.all_eq_true.mpr fun c hc => (Bool.and_eq_true_iff.mp (hall c hc)).1

theorem readAttr_render {a : List Char × List Char} (hname : isName a.1 = true)
    (hvalue : a.2.all isValueChar = true) (rest : List Char) :
    readAttr (a.1 ++ '=' :: '"' :: (a.2 ++ '"' :: rest)) = some (a, rest) := by
  rw [readAttr, readName_append hname (by rintro c ⟨⟩; decide)]
  simp [readValue_append hvalue]

/-- The attributes of a start tag are read as they were written. -/
theorem readAttrs_render {fuel : Nat} (hfuel : attrs.length < fuel)
    (hattrs : ∀ a ∈ attrs, isName a.1 = true ∧ a.2.all isValueChar = true) :
    readAttrs fuel (attrs.flatMap renderAttr ++ '>' :: rest) = some (attrs, false, rest) := by
  induction attrs generalizing fuel with
  | nil =>
      match fuel with
      | fuel + 1 => rfl
  | cons a attrs ih =>
      match fuel with
      | fuel + 1 =>
          obtain ⟨hname, hvalue⟩ := hattrs a List.mem_cons_self
          have ih := ih (Nat.lt_of_succ_lt_succ hfuel) fun b hb =>
            hattrs b (List.mem_cons_of_mem _ hb)
          have hwritten : (a :: attrs).flatMap renderAttr ++ '>' :: rest = ' ' ::
              (a.1 ++ '=' :: '"' :: (a.2 ++ '"' :: (attrs.flatMap renderAttr ++ '>' :: rest))) := by
            simp [renderAttr]
          have hread := readAttr_render hname hvalue (attrs.flatMap renderAttr ++ '>' :: rest)
          -- the name starts behind the space
          obtain ⟨n, ns, hn⟩ := List.exists_cons_of_ne_nil (isName_ne_nil hname)
          have hfirst := isName_all hname n (by rw [hn]; exact List.mem_cons_self)
          rw [hwritten, readAttrs]
          rw [hn, List.cons_append] at hread ⊢
          rw [List.dropWhile_cons_of_pos (by decide),
            List.dropWhile_cons_of_neg (by rw [isSpace_of_name hfirst]; decide)]
          split
          · next h => rw [(List.cons.inj h).1] at hfirst; cases hfirst
          · next h => rw [(List.cons.inj h).1] at hfirst; cases hfirst
          · rw [List.head?_cons, Option.any_some, if_pos (show isSpace ' ' = true by decide), hread,
              Option.bind_some, ih]
            rfl

end Tags

/-! ### Content -/

section Content

variable {tag cs rest : List Char} {attrs : Attributes} {c : Content} {fuel : Nat}

/-- Content does not start with characters. -/
def Content.NoText : Content → Prop
  | .text _ _ => False
  | _ => True

/-- Content as a reader makes it: characters that may stand there, in one piece, and tags that can
be written. -/
def Content.WellFormed : Content → Prop
  | .nil => True
  | .text cs rest => cs ≠ [] ∧ (∀ c ∈ cs, isChar c = true) ∧ rest.NoText ∧ rest.WellFormed
  | .element tag attrs inner rest =>
      isName tag = true ∧ AttrsOk attrs ∧ inner.WellFormed ∧ rest.WellFormed

/-- How deep and how far a reader goes. -/
def Content.size : Content → Nat
  | .nil => 1
  | .text _ rest => rest.size + 1
  | .element _ _ inner rest => inner.size + rest.size + 1

/-- Nothing follows, or an end tag. -/
def AtEnd (cs : List Char) : Prop := cs = [] ∨ ∃ xs, cs = '<' :: '/' :: xs

theorem readContent_end (h : AtEnd cs) : readContent (fuel + 1) cs = some (.nil, cs) := by
  rcases h with rfl | ⟨xs, rfl⟩
  · rfl
  · rfl

theorem length_le_render (attrs : Attributes) :
    attrs.length ≤ (attrs.flatMap renderAttr).length := by
  induction attrs with
  | nil => exact Nat.le_refl 0
  | cons a attrs ih =>
      rw [List.flatMap_cons, List.length_append, List.length_cons, renderAttr]
      simp only [List.cons_append, List.length_cons]
      omega

/-- A start tag, and what it opens. -/
theorem readContent_start (htag : isName tag = true) (hattrs : AttrsOk attrs) :
    readContent (fuel + 1) (startTag tag attrs ++ rest) =
      ((readContent fuel rest).bind fun r => (readEnd tag r.2).map fun cs => (r.1, cs)).bind
        fun r => (readContent fuel r.2).map fun s => (.element tag attrs r.1 s.1, s.2) := by
  obtain ⟨n, ns, hn⟩ := List.exists_cons_of_ne_nil (isName_ne_nil htag)
  have hne : n ≠ '/' := by
    rintro rfl
    exact absurd (isName_all htag '/' (by rw [hn]; exact List.mem_cons_self)) (by decide)
  have hwritten : startTag tag attrs ++ rest =
      '<' :: (tag ++ (attrs.flatMap renderAttr ++ '>' :: rest)) := by simp [startTag]
  have hname : readName (tag ++ (attrs.flatMap renderAttr ++ '>' :: rest)) =
      some (tag, attrs.flatMap renderAttr ++ '>' :: rest) := by
    refine readName_append htag ?_
    cases attrs with
    | nil => rintro c ⟨⟩; decide
    | cons a attrs => rintro c ⟨⟩; decide
  have hlen : attrs.length < (attrs.flatMap renderAttr ++ '>' :: rest).length + 1 := by
    have := length_le_render attrs
    rw [List.length_append]
    omega
  rw [hwritten, readContent, if_neg (by simp), if_neg (by rw [hn]; simpa using hne), hname]
  simp only [Option.bind_eq_bind, Option.bind_some, readAttrs_render hlen hattrs.2, if_pos hattrs.1,
    Bool.false_eq_true, if_false]

/-- Characters, up to a tag. -/
theorem readContent_text (hne : cs ≠ []) (hcs : ∀ c ∈ cs, isChar c = true) (hrest : AtTag rest) :
    readContent (fuel + 1) (escape cs ++ rest) = (do
      let (after, xs) ← readContent fuel rest
      some (.text cs after, xs)) := by
  obtain ⟨d, ds, hd, hne⟩ := escape_starts hne
  have hread := charData_escape hcs hrest
  rw [hd, List.cons_append] at hread ⊢
  rw [readContent, if_pos hne, hread]
  rfl

theorem Content.render_atTag (h : c.NoText) (hrest : AtTag rest) : AtTag (c.render ++ rest) := by
  cases c with
  | nil => exact hrest
  | text cs rest => exact h.elim
  | element tag attrs inner after => rintro d ⟨⟩; rfl

theorem AtEnd.atTag (h : AtEnd cs) : AtTag cs := by
  rcases h with rfl | ⟨xs, rfl⟩
  · exact nofun
  · rintro d ⟨⟩; rfl

/-- **What is written is read back**, element by element. -/
theorem content_render (hc : c.WellFormed) (hfuel : c.size ≤ fuel) (hrest : AtEnd rest) :
    readContent fuel (c.render ++ rest) = some (c, rest) := by
  induction c generalizing fuel rest with
  | nil =>
      match fuel with
      | fuel + 1 => exact readContent_end hrest
  | text cs after ih =>
      obtain ⟨hne, hcs, hno, hafter⟩ := hc
      match fuel with
      | fuel + 1 =>
          rw [Content.render, List.append_assoc,
            readContent_text hne hcs (Content.render_atTag hno hrest.atTag),
            ih hafter (Nat.le_of_succ_le_succ hfuel) hrest]
          rfl
  | element tag attrs inner after ihInner ihAfter =>
      obtain ⟨htag, hattrs, hinner, hafter⟩ := hc
      match fuel with
      | fuel + 1 =>
          simp only [Content.size] at hfuel
          have hinner := ihInner hinner (show inner.size ≤ fuel by omega)
            (.inr ⟨tag ++ ['>'] ++ (after.render ++ rest), by simp [endTag]⟩ :
              AtEnd (endTag tag ++ (after.render ++ rest)))
          rw [Content.render, List.append_assoc, List.append_assoc, List.append_assoc,
            readContent_start htag hattrs, hinner]
          have hrest := ihAfter hafter (show after.size ≤ fuel by omega) hrest
          simp only [Option.bind_some, Option.map_some, readEnd_endTag htag, hrest]

end Content

/-! ### Line ends -/

section LineEnds

variable {c : Content} {cs xs ys : List Char} {b : Bool}

/-- What a reader makes of content: its characters with their line ends normalised. -/
def Content.normalized : Content → Content
  | .nil => .nil
  | .text cs rest => .text (normalize cs) rest.normalized
  | .element tag attrs inner rest => .element tag attrs inner.normalized rest.normalized

def Element.normalized (e : Element) : Element := { e with inner := e.inner.normalized }

theorem normalizeFrom_append (h : ∀ c ∈ ys.head?, c ≠ '\n') :
    normalizeFrom b (xs ++ ys) = normalizeFrom b xs ++ normalize ys := by
  induction xs generalizing b with
  | nil =>
      cases ys with
      | nil => rfl
      | cons c ys => simp [normalizeFrom, normalize, h c rfl]
  | cons c xs ih =>
      simp only [List.cons_append, normalizeFrom]
      split
      · rw [ih, List.cons_append]
      · split
        · exact ih
        · rw [ih, List.cons_append]

theorem normalize_append_of_not_mem (h : '\r' ∉ xs) : normalize (xs ++ ys) = xs ++ normalize ys := by
  induction xs with
  | nil => rfl
  | cons c xs ih =>
      obtain ⟨hc, hxs⟩ := not_or.mp (mt List.mem_cons.mpr h)
      have ih := ih hxs
      simp only [normalize] at ih ⊢
      rw [List.cons_append, normalizeFrom, if_neg (fun e => hc e.symm), ih]
      rfl

theorem not_mem_normalizeFrom : '\r' ∉ normalizeFrom b cs := by
  induction cs generalizing b with
  | nil => exact List.not_mem_nil
  | cons c cs ih =>
      rw [normalizeFrom]
      split
      · exact List.not_mem_cons_of_ne_of_not_mem (by decide) ih
      · next h =>
          split
          · exact ih
          · exact List.not_mem_cons_of_ne_of_not_mem (fun e => h e.symm) ih

/-- **Only `'\r'` does not stay what it is.** -/
theorem normalize_eq_self_iff : normalize cs = cs ↔ '\r' ∉ cs := by
  constructor
  · intro h hmem
    rw [← h] at hmem
    exact not_mem_normalizeFrom hmem
  · intro h
    have happend : normalize (cs ++ []) = cs ++ normalize [] := normalize_append_of_not_mem h
    rw [List.append_nil] at happend
    exact happend.trans (List.append_nil cs)

theorem mem_normalizeFrom {c : Char} (h : c ∈ normalizeFrom b cs) : c ∈ cs ∨ c = '\n' := by
  induction cs generalizing b with
  | nil => exact absurd h List.not_mem_nil
  | cons d cs ih =>
      rw [normalizeFrom] at h
      split at h
      · rcases List.mem_cons.mp h with rfl | h
        · exact .inr rfl
        · exact (ih h).imp_left (List.mem_cons_of_mem d)
      · split at h
        · exact (ih h).imp_left (List.mem_cons_of_mem d)
        · rcases List.mem_cons.mp h with rfl | h
          · exact .inl List.mem_cons_self
          · exact (ih h).imp_left (List.mem_cons_of_mem d)

theorem normalize_ne_nil (h : cs ≠ []) : normalize cs ≠ [] := by
  cases cs with
  | nil => exact absurd rfl h
  | cons c cs =>
      rw [normalize, normalizeFrom]
      split
      · exact List.cons_ne_nil _ _
      · exact List.cons_ne_nil _ _

/-- Escaping leaves line ends alone. -/
theorem normalizeFrom_escape : normalizeFrom b (escape cs) = escape (normalizeFrom b cs) := by
  induction cs generalizing b with
  | nil => rfl
  | cons c cs ih =>
      rw [escape_cons]
      by_cases hc : c = '&' ∨ c = '<' ∨ c = '>'
      · rcases hc with rfl | rfl | rfl
        · simp [escapeChar, normalizeFrom, escape_cons, ih]
        · simp [escapeChar, normalizeFrom, escape_cons, ih]
        · simp [escapeChar, normalizeFrom, escape_cons, ih]
      · obtain ⟨h₁, h₂, h₃⟩ : c ≠ '&' ∧ c ≠ '<' ∧ c ≠ '>' := by
          simpa only [not_or] using hc
        rw [escapeChar_of_ne h₁ h₂ h₃, List.singleton_append, normalizeFrom, normalizeFrom]
        split
        · rw [ih, escape_cons]
          rfl
        · split
          · exact ih
          · rw [ih, escape_cons, escapeChar_of_ne h₁ h₂ h₃, List.singleton_append]

theorem not_mem_startTag {tag : List Char} {attrs : Attributes} (htag : isName tag = true)
    (hattrs : AttrsOk attrs) : '\r' ∉ startTag tag attrs := by
  have hname : ∀ {name : List Char}, isName name = true → '\r' ∉ name := fun h hmem =>
    absurd (isName_all h _ hmem) (by decide)
  have hall : '\r' ∉ attrs.flatMap renderAttr := by
    rw [List.mem_flatMap]
    rintro ⟨a, ha, hmem⟩
    obtain ⟨hn, hv⟩ := hattrs.2 a ha
    have hvalue : '\r' ∉ a.2 := fun hmem => absurd (List.all_eq_true.mp hv _ hmem) (by decide)
    simp [renderAttr, hname hn, hvalue] at hmem
  simp [startTag, hname htag, hall]

theorem not_mem_endTag {tag : List Char} (htag : isName tag = true) : '\r' ∉ endTag tag := by
  have hname : '\r' ∉ tag := fun hmem => absurd (isName_all htag _ hmem) (by decide)
  simp [endTag, hname]

theorem AtTag.ne_newline (h : AtTag ys) : ∀ c ∈ ys.head?, c ≠ '\n' := by
  intro c hc
  rw [h c hc]
  decide

/-- Normalising what is written is writing what is normalised. -/
theorem normalize_render (hc : c.WellFormed) (hys : AtTag ys) :
    normalize (c.render ++ ys) = c.normalized.render ++ normalize ys := by
  induction c generalizing ys with
  | nil => rfl
  | text cs rest ih =>
      obtain ⟨-, -, hno, hrest⟩ := hc
      have hnl := (Content.render_atTag hno hys).ne_newline
      rw [Content.render, List.append_assoc, normalize, normalizeFrom_append hnl, ih hrest hys,
        normalizeFrom_escape, Content.normalized, Content.render, List.append_assoc]
      rfl
  | element tag attrs inner rest ihInner ihRest =>
      obtain ⟨htag, hattrs, hinner, hrest⟩ := hc
      have hend : AtTag (endTag tag ++ (rest.render ++ ys)) := by rintro d ⟨⟩; rfl
      simp only [Content.normalized, Content.render, List.append_assoc]
      rw [normalize_append_of_not_mem (not_mem_startTag htag hattrs), ihInner hinner hend,
        normalize_append_of_not_mem (not_mem_endTag htag), ihRest hrest hys]

theorem Content.NoText.normalized (h : c.NoText) : c.normalized.NoText := by
  cases c with
  | nil => trivial
  | text cs rest => exact h.elim
  | element tag attrs inner rest => trivial

theorem Content.WellFormed.normalized (h : c.WellFormed) : c.normalized.WellFormed := by
  induction c with
  | nil => trivial
  | text cs rest ih =>
      obtain ⟨hne, hcs, hno, hrest⟩ := h
      refine ⟨normalize_ne_nil hne, fun d hd => ?_, hno.normalized, ih hrest⟩
      rcases mem_normalizeFrom hd with hd | rfl
      · exact hcs d hd
      · rfl
  | element tag attrs inner rest ihInner ihRest =>
      obtain ⟨htag, hattrs, hinner, hrest⟩ := h
      exact ⟨htag, hattrs, ihInner hinner, ihRest hrest⟩

theorem size_le_render (h : c.WellFormed) : c.size ≤ c.render.length + 1 := by
  induction c with
  | nil => exact Nat.le_refl 1
  | text cs rest ih =>
      obtain ⟨hne, -, -, hrest⟩ := h
      obtain ⟨d, ds, hd, -⟩ := escape_starts hne
      have := ih hrest
      rw [Content.size, Content.render, hd, List.length_append, List.length_cons]
      omega
  | element tag attrs inner rest ihInner ihRest =>
      obtain ⟨-, -, hinner, hrest⟩ := h
      have := ihInner hinner
      have := ihRest hrest
      simp only [Content.size, Content.render, startTag, endTag, List.length_append,
        List.length_cons]
      omega

/-- **A document is read back**, with its line ends normalised. -/
theorem parse_document {e : Element} (he : e.content.WellFormed) :
    parse e.document = some e.normalized := by
  have hwf := he.normalized
  have hrender : normalize (e.content.render ++ []) = e.normalized.content.render ++ normalize [] :=
    normalize_render he nofun
  have hread : readContent (e.normalized.content.render.length + 1)
      (e.normalized.content.render ++ []) = some (e.normalized.content, []) :=
    content_render hwf (size_le_render hwf) (.inl rfl)
  rw [List.append_nil, show normalize [] = [] from rfl, List.append_nil] at hrender
  rw [List.append_nil] at hread
  rw [parse, Element.document, normalize_append_of_not_mem (by decide), hrender]
  simp only [List.isPrefixOf_iff_prefix.mpr (List.prefix_append _ _), if_true, List.drop_left]
  rw [show e.normalized.content.render.dropWhile isSpace = e.normalized.content.render from rfl, hread]
  rfl

end LineEnds

/-! ### Names in their name space, and what is looked up -/

/-- The tag `{ns}name`. -/
def qualify (ns name : List Char) : List Char := if ns = [] then name else '{' :: ns ++ '}' :: name

/-- `xmlns` -/
def xmlns : List Char := ['x', 'm', 'l', 'n', 's']

/-- The name space in an element: of its own `xmlns`, or the one around it. -/
def nameSpace (ns : List Char) (attrs : Attributes) : List Char := (attrs.lookup xmlns).getD ns

/-- Tags in their name space. -/
def Content.resolve (ns : List Char) : Content → Content
  | .nil => .nil
  | .text cs rest => .text cs (rest.resolve ns)
  | .element tag attrs inner rest =>
      .element (qualify (nameSpace ns attrs) tag) (attrs.filter (·.1 ≠ xmlns))
        (inner.resolve (nameSpace ns attrs)) (rest.resolve ns)

def Element.resolve (e : Element) : Element :=
  ⟨qualify (nameSpace [] e.attrs) e.tag, e.attrs.filter (·.1 ≠ xmlns),
    e.inner.resolve (nameSpace [] e.attrs)⟩

/-- `ElementTree.fromstring`. -/
def fromstring (text : List Char) : Option Element := (parse text).map Element.resolve

/-- `.//tag`: what the elements with the tag hold, in document order. -/
def Content.descendants (tag : List Char) : Content → List Content
  | .nil => []
  | .text _ rest => rest.descendants tag
  | .element t _ inner rest =>
      (if t = tag then [inner] else []) ++ inner.descendants tag ++ rest.descendants tag

/-- `tag`: those that are not inside another element. -/
def Content.children (tag : List Char) : Content → List Content
  | .nil => []
  | .text _ rest => rest.children tag
  | .element t _ inner rest => (if t = tag then [inner] else []) ++ rest.children tag

/-- `text`, or `""`: the characters before the first element. -/
def Content.leading : Content → List Char
  | .text cs _ => cs
  | _ => []

/-- `findtext(tag)`, or `""`. -/
def Content.findtext (tag : List Char) (c : Content) : List Char :=
  match c.children tag with
  | [] => []
  | inner :: _ => inner.leading

/-- All its characters may stand in a document. -/
def Content.Legal : Content → Prop
  | .nil => True
  | .text cs rest => (∀ c ∈ cs, isChar c = true) ∧ rest.Legal
  | .element _ _ inner rest => inner.Legal ∧ rest.Legal

section Legal

variable {c d : Content} {cs tag : List Char}

theorem Content.Legal.descendants (h : c.Legal) (hd : d ∈ c.descendants tag) : d.Legal := by
  induction c with
  | nil => exact absurd hd List.not_mem_nil
  | text cs rest ih => exact ih h.2 hd
  | element t attrs inner rest ihInner ihRest =>
      rcases List.mem_append.mp hd with hd | hd
      · rcases List.mem_append.mp hd with hd | hd
        · split at hd
          · rw [List.mem_singleton.mp hd]
            exact h.1
          · cases hd
        · exact ihInner h.1 hd
      · exact ihRest h.2 hd

theorem Content.Legal.children (h : c.Legal) (hd : d ∈ c.children tag) : d.Legal := by
  induction c with
  | nil => exact absurd hd List.not_mem_nil
  | text cs rest ih => exact ih h.2 hd
  | element t attrs inner rest ihInner ihRest =>
      rcases List.mem_append.mp hd with hd | hd
      · split at hd
        · rw [List.mem_singleton.mp hd]
          exact h.1
        · cases hd
      · exact ihRest h.2 hd

theorem Content.Legal.leading (h : c.Legal) : ∀ x ∈ c.leading, isChar x = true := by
  cases c with
  | nil => exact List.forall_mem_nil _
  | text cs rest => exact h.1
  | element tag attrs inner rest => exact List.forall_mem_nil _

theorem entity_legal {name : List Char} {x : Char} (h : entity name = some x) : isChar x = true := by
  have hnumber : ∀ {base : Nat} {ds : List Char}, entity.number base ds = some x →
      isChar x = true := by
    intro base ds h
    simp only [entity.number] at h
    split at h
    · cases h
    · next hno =>
        obtain rfl := Option.some.inj h
        simp only [Bool.or_eq_true, not_or, Bool.not_eq_true', Bool.not_eq_false] at hno
        exact hno.2
  unfold entity at h
  split at h
  · cases h; rfl
  · cases h; rfl
  · cases h; rfl
  · cases h; rfl
  · cases h; rfl
  · exact hnumber h
  · exact hnumber h
  · cases h

/-- A reader reads nothing that may not stand in a document. -/
theorem charData_legal {p : Option (List Char)} {rest : List Char}
    {text : List Char} (h : charData p cs = some (text, rest)) : ∀ x ∈ text, isChar x = true := by
  induction cs generalizing p text rest with
  | nil =>
      cases p with
      | none => cases h; exact List.forall_mem_nil _
      | some name => cases h
  | cons c cs ih =>
      cases p with
      | none =>
          rw [charData] at h
          split at h
          · cases h
            exact List.forall_mem_nil _
          · split at h
            · exact ih h
            · split at h
              · cases h
              · next hc =>
                  obtain ⟨⟨t, r⟩, ht, hr⟩ := Option.map_eq_some_iff.mp h
                  obtain ⟨rfl, -⟩ := Prod.mk.inj hr
                  refine List.forall_mem_cons.mpr ⟨?_, ih ht⟩
                  simp only [Bool.or_eq_true, not_or, Bool.not_eq_true', Bool.not_eq_false] at hc
                  exact hc.1
      | some name =>
          rw [charData] at h
          split at h
          · obtain ⟨x, hx, h⟩ := Option.bind_eq_some_iff.mp h
            obtain ⟨⟨t, r⟩, ht, hr⟩ := Option.map_eq_some_iff.mp h
            obtain ⟨rfl, -⟩ := Prod.mk.inj hr
            exact List.forall_mem_cons.mpr ⟨entity_legal hx, ih ht⟩
          · exact ih h

theorem readContent_legal {fuel : Nat} {rest : List Char} (h : readContent fuel cs = some (c, rest)) :
    c.Legal := by
  induction fuel generalizing cs c rest with
  | zero => cases h
  | succ fuel ih =>
      cases cs with
      | nil => cases h; trivial
      | cons x cs =>
          rw [readContent] at h
          split at h
          · obtain ⟨⟨text, xs⟩, htext, h⟩ := Option.bind_eq_some_iff.mp h
            obtain ⟨⟨after, ys⟩, hafter, h⟩ := Option.bind_eq_some_iff.mp h
            cases Option.some.inj h
            exact ⟨charData_legal htext, ih hafter⟩
          · split at h
            · cases h; trivial
            · obtain ⟨⟨tag, xs⟩, -, h⟩ := Option.bind_eq_some_iff.mp h
              obtain ⟨⟨attrs, closed, ys⟩, -, h⟩ := Option.bind_eq_some_iff.mp h
              simp only at h
              split at h
              · obtain ⟨⟨inner, zs⟩, hinner, h⟩ := Option.bind_eq_some_iff.mp h
                obtain ⟨⟨after, ws⟩, hafter, h⟩ := Option.map_eq_some_iff.mp h
                cases h
                refine ⟨?_, ih hafter⟩
                split at hinner
                · cases hinner
                  trivial
                · obtain ⟨⟨content, vs⟩, hcontent, hinner⟩ := Option.bind_eq_some_iff.mp hinner
                  obtain ⟨us, -, hinner⟩ := Option.map_eq_some_iff.mp hinner
                  cases hinner
                  exact ih hcontent
              · cases h

theorem Content.Legal.resolve {uri : List Char} (h : c.Legal) : (c.resolve uri).Legal := by
  induction c generalizing uri with
  | nil => trivial
  | text cs rest ih => exact ⟨h.1, ih h.2⟩
  | element tag attrs inner rest ihInner ihRest => exact ⟨ihInner h.1, ihRest h.2⟩

/-- **What is read can be written again.** -/
theorem fromstring_legal {text : List Char} {e : Element} (h : fromstring text = some e) :
    e.inner.Legal := by
  obtain ⟨root, hroot, rfl⟩ := Option.map_eq_some_iff.mp h
  unfold parse at hroot
  simp only at hroot
  split at hroot
  · next hread =>
      split at hroot
      · cases Option.some.inj hroot
        exact (readContent_legal hread).1.resolve
      · cases hroot
  · cases hroot

end Legal

end Support.Xml
