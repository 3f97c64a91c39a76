import IncrementalSyntax.Proofs.Token.Lossless

/-!
# Literals read byte by byte

A literal can be read off the bytes of a text without a look at the characters that they make up. Such a reader
goes from byte to byte. At a backslash it may pass over the next byte, and so into the middle of a character or past
the end of the text. All delimiters have one byte each, and no byte of a longer character is one of them, so the
reader stops between two characters all the same, where the reader of characters does.

## Main definitions

* `Text.bytes`: the bytes of a text
* `ByteReader`, `ByteReader.run`: readers that go from byte to byte
* `ByteReader.ofString`, `ByteReader.ofVerbatim`, `ByteReader.ofInterpolated`, `ByteReader.ofChar`: the literals

## Main results

* `ByteReader.Simulates.run_eq`: a reader of bytes stops where the reader of characters does that it simulates
* `ByteReader.endsAt_string`, `ByteReader.endsAt_verbatim`, `ByteReader.endsAt_interpolated`,
  `ByteReader.endsAt_char`: each literal ends between two characters
-/

namespace IncrementalSyntax

/-! ## Bytes -/

/-- The bytes of the UTF-8 encoding of a text. -/
def Text.bytes (t : Text) : List UInt8 := t.flatMap String.utf8EncodeChar

/-- The first byte of a character. -/
def leadByte (c : Char) : UInt8 := (String.utf8EncodeChar c).head String.utf8EncodeChar_ne_nil

/-- Whether a byte is a character of ASCII that ends a line. -/
def isLineBreakByte (x : UInt8) : Bool := x == '\n'.toUInt8 || x == '\r'.toUInt8

theorem utf8EncodeChar_of_lt {c : Char} (h : c.toNat < 128) : String.utf8EncodeChar c = [c.toUInt8] := by
  have hle : c.val.toNat ≤ 127 := Nat.le_of_lt_succ h
  rw [String.utf8EncodeChar, if_pos hle]
  rfl

/-- No byte of a character that has several of them is a character of ASCII. -/
theorem le_of_mem_utf8EncodeChar {c : Char} (h : 128 ≤ c.toNat) : ∀ x ∈ String.utf8EncodeChar c, 128 ≤ x := by
  have hlt : ¬ c.val.toNat ≤ 127 := Nat.not_le.2 h
  have hbyte : ∀ n, 128 ≤ n → n < 256 → (128 : UInt8) ≤ UInt8.ofNat n := by
    intro n hn hn'
    rw [UInt8.le_iff_toNat_le, UInt8.toNat_ofNat_of_lt' hn']
    exact hn
  rw [String.utf8EncodeChar, if_neg hlt]
  split_ifs <;> intro x hx <;> simp only [List.mem_cons, List.not_mem_nil, or_false] at hx
  · rcases hx with rfl | rfl <;> exact hbyte _ (by omega) (by omega)
  · rcases hx with rfl | rfl | rfl <;> exact hbyte _ (by omega) (by omega)
  · rcases hx with rfl | rfl | rfl | rfl <;> exact hbyte _ (by omega) (by omega)

theorem leadByte_of_lt {c : Char} (h : c.toNat < 128) : leadByte c = c.toUInt8 := by
  simp [leadByte, utf8EncodeChar_of_lt h]

theorem toNat_toUInt8 {c : Char} (h : c.toNat < 128) : c.toUInt8.toNat = c.toNat :=
  UInt8.toNat_ofNat_of_lt' (by omega : c.toNat < 256)

/-- A character of ASCII is told by its byte. -/
theorem leadByte_eq_iff {c d : Char} (hd : d.toNat < 128) : leadByte c = d.toUInt8 ↔ c = d := by
  constructor
  · intro h
    by_cases hc : c.toNat < 128
    · rw [leadByte_of_lt hc, ← UInt8.toNat_inj, toNat_toUInt8 hc, toNat_toUInt8 hd] at h
      exact Char.toNat_inj.1 h
    · have hle := le_of_mem_utf8EncodeChar (Nat.not_lt.1 hc) (leadByte c) (List.head_mem _)
      rw [h, UInt8.le_iff_toNat_le, toNat_toUInt8 hd] at hle
      exact absurd hle (Nat.not_le.2 hd)
  · rintro rfl
    exact leadByte_of_lt hd

theorem isLineBreakByte_leadByte (c : Char) : isLineBreakByte (leadByte c) = Text.isLineBreak c := by
  have hlf := leadByte_eq_iff (c := c) (d := '\n') (by decide)
  have hcr := leadByte_eq_iff (c := c) (d := '\r') (by decide)
  rw [Bool.eq_iff_iff]
  simp [isLineBreakByte, Text.isLineBreak, hlf, hcr]

namespace Text

@[simp] theorem bytes_nil : bytes [] = [] := rfl

@[simp] theorem bytes_cons (c : Char) (t : Text) : bytes (c :: t) = String.utf8EncodeChar c ++ bytes t := rfl

theorem length_bytes (t : Text) : t.bytes.length = width t := by
  induction t with
  | nil => rfl
  | cons c t ih => simp [ih]

theorem head?_bytes (t : Text) : t.bytes.head? = t.head?.map leadByte := by
  cases t with
  | nil => rfl
  | cons c t =>
    rw [bytes_cons, List.head?_append_of_ne_nil _ String.utf8EncodeChar_ne_nil]
    exact List.head?_eq_some_head _

end Text

/-! ## Literals character by character -/

theorem ne_of_isLineBreak {c d : Char} (h : Text.isLineBreak c = true) (hd : Text.isLineBreak d = false) : c ≠ d := by
  rintro rfl
  rw [h] at hd
  cases hd

namespace Cut

theorem string_cons {c : Char} (h : c ≠ '\\') (t : Text) : string (c :: t) =
    if c = '"' then .close '"' t else if Text.isLineBreak c then .openAt (c :: t) else (string t).cons c :=
  string.eq_3 c t fun _ _ hc _ => h hc

theorem string_of_isLineBreak {c : Char} (h : Text.isLineBreak c = true) (t : Text) :
    string (c :: t) = .openAt (c :: t) := by
  rw [string_cons (ne_of_isLineBreak h (by decide)), if_neg (ne_of_isLineBreak h (by decide)), if_pos h]

theorem verbatim_cons {c : Char} (h : c ≠ '"') (t : Text) : verbatim (c :: t) = (verbatim t).cons c := by
  rw [verbatim.eq_3 c t fun _ hc _ => h hc, if_neg h]

theorem apostrophe_cons (c : Char) (t : Text) : apostrophe (c :: t) =
    if c = '\'' then .close '\'' t else if Text.isLineBreak c then .openAt (c :: t)
      else (apostrophe t).cons c :=
  rfl

theorem nested_cons {c : Char} (h : c ≠ '\\') (depth : Nat) (t : Text) :
    interpolated (.nested depth) (c :: t) =
      if c = '"' then (interpolated (.hole depth) t).cons c
      else if Text.isLineBreak c then .openAt (c :: t) else (interpolated (.nested depth) t).cons c :=
  interpolated.eq_3 depth c t fun _ _ hc _ => h hc

theorem text_cons {c : Char} {t : Text} (hback : c = '\\' → t = [])
    (hopen : c = '\x7b' → t.head? ≠ some '\x7b') (hclose : c = '\x7d' → t.head? ≠ some '\x7d') :
    interpolated .text (c :: t) =
      if Text.isLineBreak c then .openAt (c :: t)
      else if c = '\x7b' then (interpolated (.hole 0) t).cons c
      else if c = '"' then .close '"' t else (interpolated .text t).cons c := by
  refine interpolated.eq_8 c t ?_ ?_ ?_
  · rintro d s hc rfl
    cases hback hc
  · rintro s hc rfl
    exact hopen hc rfl
  · rintro s hc rfl
    exact hclose hc rfl

theorem text_of_isLineBreak {c : Char} (h : Text.isLineBreak c = true) (t : Text) :
    interpolated .text (c :: t) = .openAt (c :: t) := by
  rw [text_cons, if_pos h]
  · exact fun hc => absurd hc (ne_of_isLineBreak h (by decide))
  · exact fun hc => absurd hc (ne_of_isLineBreak h (by decide))
  · exact fun hc => absurd hc (ne_of_isLineBreak h (by decide))

end Cut

/-! ## Readers -/

/-- **Stop.** Where a reader has come to an end, in bytes, and whether it has found the closing delimiter. -/
structure Stop where
  offset : Nat
  closed : Bool
  deriving DecidableEq, Repr

/-- **Move.** What a reader does at a byte: it stops a number of bytes further, it passes over the byte, or it passes
over two bytes without a look at the second one. -/
inductive Move (σ : Type) where
  | stop (skip : Nat) (closed : Bool)
  | pass (state : σ)
  | passTwo (state : σ)

/-- **Byte reader.** The move in a state, at a byte and with a byte behind it unless that is the last one. -/
abbrev ByteReader (σ : Type) := σ → UInt8 → Option UInt8 → Move σ

namespace ByteReader

variable {σ : Type}

/-- Reads from an offset on. The end of the bytes is an end of the literal. -/
def run (r : ByteReader σ) (bytes : List UInt8) (state : σ) (i : Nat) : Stop :=
  match _h : bytes[i]? with
  | none => ⟨bytes.length, false⟩
  | some x =>
    match r state x bytes[i + 1]? with
    | .stop skip closed => ⟨i + skip, closed⟩
    | .pass s => run r bytes s (i + 1)
    | .passTwo s => run r bytes s (i + 2)
termination_by bytes.length - i
decreasing_by
  all_goals
    have hi := (List.getElem?_eq_some_iff.1 _h).1
    omega

/-- A string on one line. A backslash takes its meaning away from the next byte, unless that ends the line. -/
def string : ByteReader Unit := fun _ x next =>
  if x = '\\'.toUInt8 ∧ (next.any fun y => !isLineBreakByte y) = true then .passTwo ()
  else if x = '"'.toUInt8 then .stop 1 true
  else if isLineBreakByte x then .stop 0 false
  else .pass ()

/-- A string over any number of lines, in which a quote is written twice. -/
def verbatim : ByteReader Unit := fun _ x next =>
  if x = '"'.toUInt8 then if next = some '"'.toUInt8 then .passTwo () else .stop 1 true
  else .pass ()

/-- A string with holes between braces. -/
def interpolated : ByteReader Cut.Place := fun place x next =>
  match place with
  | .nested depth =>
    if x = '"'.toUInt8 then .pass (.hole depth)
    else if isLineBreakByte x then .stop 0 false
    else if x = '\\'.toUInt8 then .passTwo (.nested depth)
    else .pass (.nested depth)
  | .hole depth =>
    if isLineBreakByte x then .stop 0 false
    else if x = '\x7b'.toUInt8 then .pass (.hole (depth + 1))
    else if x = '\x7d'.toUInt8 then .pass (.leave depth)
    else if x = '"'.toUInt8 then .pass (.nested depth)
    else .pass (.hole depth)
  | .text =>
    if isLineBreakByte x then .stop 0 false
    else if x = '\\'.toUInt8 ∧ (next.any fun y => !isLineBreakByte y) = true then .passTwo .text
    else if x = '\x7b'.toUInt8 then if next = some '\x7b'.toUInt8 then .passTwo .text else .pass (.hole 0)
    else if x = '\x7d'.toUInt8 then if next = some '\x7d'.toUInt8 then .passTwo .text else .pass .text
    else if x = '"'.toUInt8 then .stop 1 true
    else .pass .text

/-- The bytes up to the next apostrophe of the line. -/
def apostrophe : ByteReader Unit := fun _ x _ =>
  if x = '\''.toUInt8 then .stop 1 true
  else if isLineBreakByte x then .stop 0 false
  else .pass ()

/-- Where the search for the apostrophe that closes a character literal begins: behind an escape at its front. -/
def searchStart (bytes : List UInt8) : Nat :=
  if bytes[0]? = some '\\'.toUInt8 then
    match bytes[1]? with
    | none => 0
    | some y => if isLineBreakByte y then 1 else 2
  else 0

def ofString (bytes : List UInt8) : Stop := string.run bytes () 0

def ofVerbatim (bytes : List UInt8) : Stop := verbatim.run bytes () 0

def ofInterpolated (bytes : List UInt8) : Stop := interpolated.run bytes .text 0

def ofChar (bytes : List UInt8) : Stop := apostrophe.run bytes () (searchStart bytes)

/-! ## Readers of bytes and readers of characters -/

/-- A move at a character of ASCII is what a reader of characters does there. -/
def Mirrors (cut : σ → Text → Cut) (s : σ) (c : Char) (t : Text) : Move σ → Prop
  | .stop skip closed =>
    skip ≤ 1 ∧ cut s (c :: t) = ⟨(c :: t).take skip, (c :: t).drop skip, closed⟩
  | .pass s' => cut s (c :: t) = (cut s' t).cons c
  | .passTwo s' =>
    match t with
    | [] => cut s [c] = (Cut.openAt []).cons c
    | d :: t => cut s (c :: d :: t) = ((cut s' t).cons d).cons c

/-- **Simulates.** The reader of bytes does at each character of ASCII what the reader of characters does, and both
pass over every other character. -/
structure Simulates (r : ByteReader σ) (cut : σ → Text → Cut) : Prop where
  nil (s : σ) : cut s [] = .openAt []
  byte (s : σ) {x : UInt8} (y : Option UInt8) (h : 128 ≤ x) : r s x y = .pass s
  char (s : σ) {c : Char} (t : Text) (h : 128 ≤ c.toNat) : cut s (c :: t) = (cut s t).cons c
  ascii (s : σ) {c : Char} (t : Text) (h : c.toNat < 128) :
    Mirrors cut s c t (r s (leadByte c) (t.head?.map leadByte))

/-- **At.** Behind an offset stand the bytes of a text. -/
structure At (bytes : List UInt8) (i : Nat) (t : Text) : Prop where
  le_length : i ≤ bytes.length
  drop_eq : bytes.drop i = t.bytes

theorem At.zero (t : Text) : At t.bytes 0 t := ⟨Nat.zero_le _, rfl⟩

theorem At.add {bytes : List UInt8} {i : Nat} {c : Char} {t : Text} (h : At bytes i (c :: t)) :
    At bytes (i + c.utf8Size) t where
  le_length := by
    have hlength := congrArg List.length h.drop_eq
    have hle := h.le_length
    rw [List.length_drop, Text.length_bytes, Text.width_cons] at hlength
    omega
  drop_eq := by
    rw [← List.drop_drop, h.drop_eq, Text.bytes_cons]
    exact List.drop_left' (String.length_utf8EncodeChar c)

theorem At.getElem? {bytes : List UInt8} {i : Nat} {t : Text} (h : At bytes i t) (j : Nat) :
    bytes[i + j]? = t.bytes[j]? := by
  rw [← List.getElem?_drop, h.drop_eq]

section Runs

variable {r : ByteReader σ} {cut : σ → Text → Cut} {bytes : List UInt8}

theorem run_of_none {i : Nat} (h : bytes[i]? = none) (s : σ) : run r bytes s i = ⟨bytes.length, false⟩ := by
  rw [run]
  split
  · rfl
  · next x hx => rw [h] at hx; cases hx

theorem run_of_some {i : Nat} {x : UInt8} (h : bytes[i]? = some x) (s : σ) :
    run r bytes s i = match r s x bytes[i + 1]? with
      | .stop skip closed => ⟨i + skip, closed⟩
      | .pass s => run r bytes s (i + 1)
      | .passTwo s => run r bytes s (i + 2) := by
  rw [run]
  split
  · next hx => rw [h] at hx; cases hx
  · next y hy =>
    obtain rfl : x = y := Option.some.inj (h.symm.trans hy)
    rfl

/-- The bytes of longer characters are passed over one by one. -/
theorem Simulates.run_add (h : Simulates r cut) (s : σ) {i n : Nat}
    (hbytes : ∀ j < n, ∃ x, bytes[i + j]? = some x ∧ 128 ≤ x) : run r bytes s i = run r bytes s (i + n) := by
  induction n generalizing i with
  | zero => rfl
  | succ n ih =>
    obtain ⟨x, hx, hle⟩ := hbytes 0 (Nat.succ_pos n)
    have hrest : ∀ j < n, ∃ x, bytes[i + 1 + j]? = some x ∧ 128 ≤ x := by
      intro j hj
      rw [Nat.add_assoc, Nat.add_comm 1 j]
      exact hbytes (j + 1) (Nat.succ_lt_succ hj)
    rw [Nat.add_zero] at hx
    rw [run_of_some hx, h.byte s _ hle]
    dsimp only
    rw [ih hrest, Nat.add_assoc, Nat.add_comm 1 n]

/-- From the middle of a character a reader goes on to its end. -/
theorem Simulates.run_behind (h : Simulates r cut) (s : σ) {i : Nat} {c : Char} {t : Text}
    (hat : At bytes i (c :: t)) : run r bytes s (i + 1) = run r bytes s (i + c.utf8Size) := by
  have hsize := c.utf8Size_pos
  rw [show i + c.utf8Size = i + 1 + (c.utf8Size - 1) by omega]
  refine h.run_add s fun j hj => ?_
  have hlength := String.length_utf8EncodeChar c
  have hlt : 1 + j < (String.utf8EncodeChar c).length := by omega
  have hwide : 128 ≤ c.toNat := by
    by_contra hc
    rw [utf8EncodeChar_of_lt (Nat.not_le.1 hc), List.length_singleton] at hlt
    omega
  refine ⟨(String.utf8EncodeChar c)[1 + j], ?_, le_of_mem_utf8EncodeChar hwide _ (List.getElem_mem _)⟩
  rw [Nat.add_assoc, hat.getElem?, Text.bytes_cons, List.getElem?_append_left hlt, List.getElem?_eq_getElem hlt]

/-- **Bytes and characters.** A reader of bytes stops where the reader of characters does that it simulates. By
induction on the number of characters, since a reader may pass over two of them. -/
theorem Simulates.run_eq (h : Simulates r cut) {i : Nat} {t : Text} (s : σ) (hat : At bytes i t) :
    run r bytes s i = ⟨i + Text.width (cut s t).taken, (cut s t).closed⟩ := by
  induction hn : t.length using Nat.strong_induction_on generalizing i t s with
  | _ n ih =>
    cases t with
    | nil =>
      have hend : bytes[i]? = none := by simpa using hat.getElem? 0
      have hlength : i = bytes.length :=
        Nat.le_antisymm hat.le_length (List.getElem?_eq_none_iff.1 hend)
      rw [run_of_none hend, h.nil, hlength]
      rfl
    | cons c t =>
      have hrest := hat.add
      have hfirst : bytes[i]? = some (leadByte c) := by
        have := Text.head?_bytes (c :: t)
        rw [List.head?_eq_getElem?, ← hat.getElem? 0] at this
        exact this
      by_cases hc : 128 ≤ c.toNat
      -- the first byte of a longer character is passed over, and from there on its other bytes are
      · have hle := le_of_mem_utf8EncodeChar hc (leadByte c) (List.head_mem _)
        rw [run_of_some hfirst, h.byte s _ hle, h.char s t hc]
        dsimp only
        rw [h.run_behind s hat, ih t.length (by simp [← hn]) s hrest rfl]
        simp [Cut.cons, Nat.add_assoc]
      · replace hc := Nat.not_le.1 hc
        have hsize : c.utf8Size = 1 := by
          rw [← String.length_utf8EncodeChar, utf8EncodeChar_of_lt hc, List.length_singleton]
        rw [hsize] at hrest
        have hnext : bytes[i + 1]? = t.head?.map leadByte := by
          rw [← Text.head?_bytes, List.head?_eq_getElem?, ← hrest.getElem? 0]
        -- the move at the one byte of the character mirrors what is done at the character
        have hmirrors := h.ascii s t hc
        rw [run_of_some hfirst, hnext]
        cases hmove : r s (leadByte c) (t.head?.map leadByte) with
        | stop skip closed =>
          rw [hmove] at hmirrors
          obtain ⟨hskip, hcut⟩ := hmirrors
          rw [hcut]
          obtain rfl | rfl : skip = 0 ∨ skip = 1 := by omega
          · rfl
          · simp [hsize]
        | pass s' =>
          rw [hmove] at hmirrors
          have hcut : cut s (c :: t) = (cut s' t).cons c := hmirrors
          dsimp only
          rw [hcut, ih t.length (by simp [← hn]) s' hrest rfl]
          simp [Cut.cons, hsize, Nat.add_assoc]
        | passTwo s' =>
          rw [hmove] at hmirrors
          dsimp only
          cases t with
          | nil =>
            -- past the end of the bytes
            have hcut : cut s [c] = (Cut.openAt []).cons c := hmirrors
            have hlength : i + 1 = bytes.length :=
              Nat.le_antisymm hrest.le_length (List.getElem?_eq_none_iff.1 hnext)
            rw [hcut, run_of_none (List.getElem?_eq_none (by omega)), ← hlength]
            simp [Cut.cons, Cut.openAt, hsize]
          | cons d t =>
            -- perhaps into the middle of the second character
            have hcut : cut s (c :: d :: t) = ((cut s' t).cons d).cons c := hmirrors
            rw [hcut, show i + 2 = i + 1 + 1 from rfl, h.run_behind s' hrest,
              ih t.length (by simp [← hn]) s' hrest.add rfl]
            simp [Cut.cons, hsize, Nat.add_assoc]

end Runs

/-! ## Literals -/

/-- A byte of a longer character is none of ASCII. -/
theorem ne_of_le {x : UInt8} {d : Char} (h : 128 ≤ x) (hd : d.toNat < 128) : x ≠ d.toUInt8 := by
  rintro rfl
  rw [UInt8.le_iff_toNat_le, toNat_toUInt8 hd] at h
  exact absurd h (Nat.not_le.2 hd)

theorem not_isLineBreakByte_of_le {x : UInt8} (h : 128 ≤ x) : isLineBreakByte x = false := by
  simp [isLineBreakByte, ne_of_le (d := '\n') h, ne_of_le (d := '\r') h]

theorem ne_of_toNat_le {c d : Char} (h : 128 ≤ c.toNat) (hd : d.toNat < 128) : c ≠ d := by
  rintro rfl
  exact absurd h (Nat.not_le.2 hd)

theorem not_isLineBreak_of_le {c : Char} (h : 128 ≤ c.toNat) : Text.isLineBreak c = false := by
  simp [Text.isLineBreak, ne_of_toNat_le (d := '\n') h, ne_of_toNat_le (d := '\r') h]

/-- Behind a backslash a character is passed over that does not end the line. -/
theorem any_map_leadByte (t : Text) :
    ((t.head?.map leadByte).any fun y => !isLineBreakByte y) = t.head?.any fun c => !Text.isLineBreak c := by
  cases t <;> simp [isLineBreakByte_leadByte]

section Literals

theorem simulates_string : string.Simulates fun _ => Cut.string where
  nil _ := rfl
  byte _ x y h := by
    simp [string, ne_of_le h, not_isLineBreakByte_of_le h]
  char _ c t h := by
    rw [Cut.string_cons (ne_of_toNat_le h (by decide)), if_neg (ne_of_toNat_le h (by decide)), not_isLineBreak_of_le h]
    rfl
  ascii _ c t h := by
    simp only [string, leadByte_eq_iff (d := '\\') (by decide), leadByte_eq_iff (d := '"') (by decide),
      isLineBreakByte_leadByte, any_map_leadByte]
    split_ifs with hescape hquote hbreak
    · obtain ⟨rfl, hnext⟩ := hescape
      cases t with
      | nil => cases hnext
      | cons d t =>
        have hd : Text.isLineBreak d = false := by simpa using hnext
        show Cut.string ('\\' :: d :: t) = _
        rw [Cut.string, hd]
        rfl
    · subst hquote
      exact ⟨le_rfl, rfl⟩
    · exact ⟨Nat.zero_le _, Cut.string_of_isLineBreak hbreak t⟩
    · show Cut.string (c :: t) = (Cut.string t).cons c
      by_cases hback : c = '\\'
      · subst hback
        cases t with
        | nil => rfl
        | cons d t =>
          have hd : Text.isLineBreak d = true := by simpa using hescape
          rw [Cut.string, if_pos hd, Cut.string_of_isLineBreak hd]
      · rw [Cut.string_cons hback, if_neg hquote, if_neg hbreak]

theorem simulates_verbatim : verbatim.Simulates fun _ => Cut.verbatim where
  nil _ := rfl
  byte _ x y h := by
    simp [verbatim, ne_of_le h]
  char _ c t h := Cut.verbatim_cons (ne_of_toNat_le h (by decide)) t
  ascii _ c t h := by
    simp only [verbatim, leadByte_eq_iff (d := '"') (by decide)]
    split_ifs with hquote hnext
    · subst hquote
      obtain ⟨d, hd, hlead⟩ := Option.map_eq_some_iff.1 hnext
      obtain ⟨t, rfl⟩ := List.head?_eq_some_iff.1 hd
      obtain rfl := (leadByte_eq_iff (by decide)).1 hlead
      rfl
    · subst hquote
      have hne : ∀ s, '"' = '"' → t = '"' :: s → False := by
        rintro s - rfl
        exact hnext (congrArg some ((leadByte_eq_iff (by decide)).2 rfl))
      refine ⟨le_rfl, ?_⟩
      show Cut.verbatim ('"' :: t) = _
      rw [Cut.verbatim.eq_3 _ _ hne, if_pos rfl]
      rfl
    · exact Cut.verbatim_cons hquote t

theorem simulates_apostrophe : apostrophe.Simulates fun _ => Cut.apostrophe where
  nil _ := rfl
  byte _ x y h := by
    simp [apostrophe, ne_of_le h, not_isLineBreakByte_of_le h]
  char _ c t h := by
    simp [Cut.apostrophe_cons, ne_of_toNat_le (d := '\'') h, not_isLineBreak_of_le h]
  ascii _ c t h := by
    simp only [apostrophe, leadByte_eq_iff (d := '\'') (by decide), isLineBreakByte_leadByte]
    split_ifs with hquote hbreak
    · subst hquote
      exact ⟨le_rfl, rfl⟩
    · refine ⟨Nat.zero_le _, ?_⟩
      show Cut.apostrophe (c :: t) = .openAt (c :: t)
      rw [Cut.apostrophe_cons, if_neg hquote, if_pos hbreak]
    · show Cut.apostrophe (c :: t) = (Cut.apostrophe t).cons c
      rw [Cut.apostrophe_cons, if_neg hquote, if_neg hbreak]

/-- The brace behind a brace in the text is told by its byte. -/
theorem map_leadByte_eq_iff {t : Text} {d : Char} (hd : d.toNat < 128) :
    t.head?.map leadByte = some d.toUInt8 ↔ t.head? = some d := by
  cases t <;> simp [leadByte_eq_iff hd]

theorem mirrors_nested (depth : Nat) {c : Char} (t : Text) :
    Mirrors Cut.interpolated (.nested depth) c t
      (interpolated (.nested depth) (leadByte c) (t.head?.map leadByte)) := by
  simp only [interpolated, leadByte_eq_iff (d := '"') (by decide), leadByte_eq_iff (d := '\\') (by decide),
    isLineBreakByte_leadByte]
  split_ifs with hquote hbreak hback
  · subst hquote
    exact Cut.nested_cons (by decide) depth t
  · refine ⟨Nat.zero_le _, ?_⟩
    rw [Cut.nested_cons (ne_of_isLineBreak hbreak (by decide)), if_neg hquote, if_pos hbreak]
    rfl
  · subst hback
    cases t with
    | nil => rfl
    | cons d t => rfl
  · show _ = _
    rw [Cut.nested_cons hback, if_neg hquote, if_neg hbreak]

theorem mirrors_hole (depth : Nat) {c : Char} (t : Text) :
    Mirrors Cut.interpolated (.hole depth) c t (interpolated (.hole depth) (leadByte c) (t.head?.map leadByte)) := by
  simp only [interpolated, leadByte_eq_iff (d := '"') (by decide), leadByte_eq_iff (d := '\x7b') (by decide),
    leadByte_eq_iff (d := '\x7d') (by decide), isLineBreakByte_leadByte]
  have hcut := Cut.interpolated.eq_4 depth c t
  split_ifs with hbreak hopen hclose hquote
  · exact ⟨Nat.zero_le _, by rw [hcut, if_pos hbreak]; rfl⟩
  · exact by rw [Mirrors, hcut, if_neg hbreak, if_pos hopen]
  · exact by rw [Mirrors, hcut, if_neg hbreak, if_neg hopen, if_pos hclose]
  · exact by rw [Mirrors, hcut, if_neg hbreak, if_neg hopen, if_neg hclose, if_pos hquote]
  · exact by rw [Mirrors, hcut, if_neg hbreak, if_neg hopen, if_neg hclose, if_neg hquote]

theorem mirrors_text {c : Char} (t : Text) :
    Mirrors Cut.interpolated .text c t (interpolated .text (leadByte c) (t.head?.map leadByte)) := by
  simp only [interpolated, leadByte_eq_iff (d := '"') (by decide), leadByte_eq_iff (d := '\\') (by decide),
    leadByte_eq_iff (d := '\x7b') (by decide), leadByte_eq_iff (d := '\x7d') (by decide), isLineBreakByte_leadByte,
    any_map_leadByte, map_leadByte_eq_iff (d := '\x7b') (by decide), map_leadByte_eq_iff (d := '\x7d') (by decide)]
  split_ifs with hbreak hescape hopen htwo hclose htwo hquote
  · exact ⟨Nat.zero_le _, Cut.text_of_isLineBreak hbreak t⟩
  · obtain ⟨rfl, hnext⟩ := hescape
    cases t with
    | nil => cases hnext
    | cons d t =>
      have hd : Text.isLineBreak d = false := by simpa using hnext
      show Cut.interpolated .text ('\\' :: d :: t) = _
      rw [Cut.interpolated, hd]
      rfl
  · subst hopen
    obtain ⟨t, rfl⟩ := List.head?_eq_some_iff.1 htwo
    rfl
  · subst hopen
    show Cut.interpolated .text ('\x7b' :: t) = _
    rw [Cut.text_cons (by simp) (fun _ => htwo) (by simp), if_neg hbreak, if_pos rfl]
  · subst hclose
    obtain ⟨t, rfl⟩ := List.head?_eq_some_iff.1 htwo
    rfl
  · subst hclose
    show Cut.interpolated .text ('\x7d' :: t) = _
    rw [Cut.text_cons (by simp) (by simp) (fun _ => htwo), if_neg hbreak, if_neg hopen, if_neg (by decide)]
  · subst hquote
    refine ⟨le_rfl, ?_⟩
    rw [Cut.text_cons (by simp) (by simp) (by simp), if_neg hbreak, if_neg hopen, if_pos rfl]
    rfl
  · show Cut.interpolated .text (c :: t) = (Cut.interpolated .text t).cons c
    by_cases hback : c = '\\'
    · subst hback
      cases t with
      | nil => rfl
      | cons d t =>
        have hd : Text.isLineBreak d = true := by simpa using hescape
        rw [Cut.interpolated, if_pos hd, Cut.text_of_isLineBreak hd]
    · rw [Cut.text_cons (fun hc => absurd hc hback) (fun hc => absurd hc hopen) (fun hc => absurd hc hclose),
        if_neg hbreak, if_neg hopen, if_neg hquote]

theorem simulates_interpolated : interpolated.Simulates Cut.interpolated where
  nil place := by cases place <;> rfl
  byte place x y h := by
    cases place <;> simp [interpolated, ne_of_le h, not_isLineBreakByte_of_le h]
  char place c t h := by
    have hne : ∀ {d : Char}, d.toNat < 128 → c ≠ d := ne_of_toNat_le h
    have hbreak := not_isLineBreak_of_le h
    cases place with
    | text => simp [Cut.text_cons (t := t) (fun hc => absurd hc (hne (by decide))) (fun hc => absurd hc (hne (by decide)))
        (fun hc => absurd hc (hne (by decide))), hbreak, hne (d := '\x7b'), hne (d := '"')]
    | hole depth => simp [Cut.interpolated, hbreak, hne (d := '\x7b'), hne (d := '\x7d'), hne (d := '"')]
    | nested depth => simp [Cut.nested_cons (hne (by decide)), hbreak, hne (d := '"')]
  ascii place c t h := by
    cases place with
    | text => exact mirrors_text t
    | hole depth => exact mirrors_hole depth t
    | nested depth => exact mirrors_nested depth t

end Literals

/-! ## Where literals end -/

end ByteReader

/-- **Ends at.** A literal at the front of a text ends at a stop, which lies between two characters. -/
structure Cut.EndsAt (cut : Cut) (t : Text) (stop : Stop) : Prop where
  split : t.splitAt? stop.offset = some (cut.taken, cut.rest)
  closed : cut.closed = stop.closed

namespace ByteReader

theorem endsAt_of_eq {cut : Cut} {t : Text} {stop : Stop} (happ : cut.taken ++ cut.rest = t)
    (h : stop = ⟨Text.width cut.taken, cut.closed⟩) : cut.EndsAt t stop where
  split := by
    rw [h]
    exact Text.splitAt?_eq_some_iff.2 ⟨happ.symm, rfl⟩
  closed := by rw [h]

theorem Simulates.endsAt {σ : Type} {r : ByteReader σ} {cut : σ → Text → Cut} (h : r.Simulates cut) (s : σ)
    {t : Text} (happ : (cut s t).taken ++ (cut s t).rest = t) : (cut s t).EndsAt t (r.run t.bytes s 0) :=
  endsAt_of_eq happ (by rw [h.run_eq s (.zero t), Nat.zero_add])

theorem endsAt_string (t : Text) : (Cut.string t).EndsAt t (ofString t.bytes) :=
  simulates_string.endsAt () (Cut.string_append t)

theorem endsAt_verbatim (t : Text) : (Cut.verbatim t).EndsAt t (ofVerbatim t.bytes) :=
  simulates_verbatim.endsAt () (Cut.verbatim_append t)

theorem endsAt_interpolated (t : Text) : (Cut.interpolated .text t).EndsAt t (ofInterpolated t.bytes) :=
  simulates_interpolated.endsAt .text (Cut.interpolated_append .text t)

/-- Behind an escape the reader may begin in the middle of a character. -/
theorem ofChar_eq (t : Text) : ofChar t.bytes = ⟨Text.width (Cut.char t).taken, (Cut.char t).closed⟩ := by
  have hfirst : t.bytes[0]? = t.head?.map leadByte := by rw [← Text.head?_bytes, List.head?_eq_getElem?]
  rw [ofChar, searchStart, hfirst]
  cases t with
  | nil => rw [if_neg nofun, simulates_apostrophe.run_eq () (.zero [])]; rfl
  | cons b t =>
    have hat : At (Text.bytes (b :: t)) 0 (b :: t) := .zero _
    simp only [List.head?_cons, Option.map_some, Option.some.injEq, leadByte_eq_iff (d := '\\') (by decide)]
    by_cases hback : b = '\\'
    · subst hback
      have hrest : At (Text.bytes ('\\' :: t)) 1 t := hat.add
      have hsecond : (Text.bytes ('\\' :: t))[1]? = t.head?.map leadByte := by
        rw [← Text.head?_bytes, List.head?_eq_getElem?, ← hrest.getElem? 0]
      rw [if_pos rfl, hsecond]
      cases t with
      | nil => rw [List.head?_nil, Option.map_none, simulates_apostrophe.run_eq () hat]; rfl
      | cons c t =>
        rw [List.head?_cons, Option.map_some]
        simp only [isLineBreakByte_leadByte]
        by_cases hbreak : Text.isLineBreak c = true
        · have hquote : c ≠ '\'' := ne_of_isLineBreak hbreak (by decide)
          have hcut : Cut.char ('\\' :: c :: t) = (Cut.openAt (c :: t)).cons '\\' := by rw [Cut.char, if_pos hbreak]
          rw [if_pos hbreak, simulates_apostrophe.run_eq () hrest, hcut, Cut.apostrophe_cons, if_neg hquote, if_pos hbreak]
          rfl
        · have hcut : Cut.char ('\\' :: c :: t) = ((Cut.apostrophe t).cons c).cons '\\' := by
            rw [Cut.char, if_neg hbreak]
          have hsize : '\\'.utf8Size = 1 := rfl
          -- the search begins right behind the first byte of the escaped character
          rw [if_neg hbreak, simulates_apostrophe.run_behind () hrest, simulates_apostrophe.run_eq () hrest.add, hcut]
          simp [Cut.cons, hsize, Nat.add_assoc]
    · have hcut : Cut.char (b :: t) = Cut.apostrophe (b :: t) :=
        Cut.char.eq_2 _ fun c s h => hback (List.cons.inj h).1
      rw [if_neg hback, simulates_apostrophe.run_eq () hat, hcut, Nat.zero_add]

theorem endsAt_char (t : Text) : (Cut.char t).EndsAt t (ofChar t.bytes) :=
  endsAt_of_eq (Cut.char_append t) (ofChar_eq t)

end ByteReader

end IncrementalSyntax
