/-
Decoding, said without a decoder.

The decoder of the project takes one byte after another and knows only what it holds of the last character.
Here it is said what the text of a byte sequence is as a whole (`Decodes`): the bytes of a character are the
character, and where no character stands, the longest beginning of one that stands there, or else one
byte, is one replacement. The decoder gives this text, and no other (`decodes_iff`).

All the arithmetic is about the bytes of one character, as numbers (`codes`). From it come the six states that
the decoder can be in inside of a character (`Holds`): in each of them it knows exactly which bytes go on with
some character.
-/
import Mathlib.Data.Nat.Find
import Shell.Proofs.World.Requests

set_option autoImplicit false

namespace Shell.Text.Utf8

/-! ## 1. The text of a byte sequence -/

/-- Some character begins with these bytes. -/
def Begins (bytes : List UInt8) : Prop := ∃ c : Char, bytes <+: String.utf8EncodeChar c

/-- The text of a byte sequence as a whole. -/
inductive Decodes : List UInt8 → List Char → Prop where
  | nil : Decodes [] []
  | char (c : Char) {rest : List UInt8} {text : List Char} (more : Decodes rest text) :
      Decodes (String.utf8EncodeChar c ++ rest) (c :: text)
  /-- No character stands here. What is replaced is the longest beginning of a character, but not less than
  one byte. -/
  | replaced {bad rest : List UInt8} {text : List Char} (ne : bad ≠ [])
      (none : ∀ c : Char, ¬ String.utf8EncodeChar c <+: bad ++ rest)
      (begins : bad.length = 1 ∨ Begins bad)
      (longest : ∀ longer, longer <+: bad ++ rest → Begins longer → longer.length ≤ bad.length)
      (more : Decodes rest text) : Decodes (bad ++ rest) (replacement :: text)

/-! ## 2. The bytes of a character as numbers -/

/-- The bytes of the character with a number. -/
def codes (v : Nat) : List Nat :=
  if v ≤ 0x7F then [v]
  else if v ≤ 0x7FF then [0xC0 + v / 64, 0x80 + v % 64]
  else if v ≤ 0xFFFF then [0xE0 + v / 4096, 0x80 + v / 64 % 64, 0x80 + v % 64]
  else [0xF0 + v / 262144, 0x80 + v / 4096 % 64, 0x80 + v / 64 % 64, 0x80 + v % 64]

/-- The numbers of characters. -/
def IsScalar (v : Nat) : Prop := v < 0xD800 ∨ 0xDFFF < v ∧ v < 0x110000

theorem isScalar_toNat (c : Char) : IsScalar c.toNat := c.valid

theorem toNat_ofNat_of_isScalar {v : Nat} (h : IsScalar v) : (Char.ofNat v).toNat = v := by
  have hvalid : v.isValidChar := h
  rw [Char.ofNat, dif_pos hvalid]
  rfl

theorem map_toNat_utf8EncodeChar (c : Char) :
    (String.utf8EncodeChar c).map UInt8.toNat = codes c.toNat := by
  have hscalar := isScalar_toNat c
  have hbyte {n : Nat} (h : n < 256) : (UInt8.ofNat n).toNat = n := UInt8.toNat_ofNat_of_lt' h
  unfold String.utf8EncodeChar codes
  rw [show c.toNat = c.val.toNat from rfl] at hscalar ⊢
  generalize c.val.toNat = v at hscalar ⊢
  unfold IsScalar at hscalar
  -- By the length of the code, which the library and the definition here choose in the same way.
  by_cases h₁ : v ≤ 0x7F
  · rw [if_pos h₁, if_pos h₁, List.map_cons, List.map_nil, hbyte (by omega)]
  rw [if_neg h₁, if_neg h₁]
  by_cases h₂ : v ≤ 0x7FF
  · rw [if_pos h₂, if_pos h₂, List.map_cons, List.map_cons, List.map_nil, hbyte (by omega), hbyte (by omega)]
    congr 1
    · omega
    · congr 1
      omega
  rw [if_neg h₂, if_neg h₂]
  by_cases h₃ : v ≤ 0xFFFF
  · rw [if_pos h₃, if_pos h₃]
    simp only [List.map_cons, List.map_nil, List.cons.injEq, and_true]
    rw [hbyte (by omega), hbyte (by omega), hbyte (by omega)]
    omega
  · rw [if_neg h₃, if_neg h₃]
    simp only [List.map_cons, List.map_nil, List.cons.injEq, and_true]
    rw [hbyte (by omega), hbyte (by omega), hbyte (by omega), hbyte (by omega)]
    omega

theorem eq_of_map_toNat_eq {bytes bytes' : List UInt8}
    (h : bytes.map UInt8.toNat = bytes'.map UInt8.toNat) : bytes = bytes' :=
  (List.map_inj_right fun _ _ => UInt8.toNat_inj.mp).mp h

/-- Bytes begin a character if their numbers begin those of a character. -/
theorem begins_iff {bytes : List UInt8} :
    Begins bytes ↔ ∃ v, IsScalar v ∧ bytes.map UInt8.toNat <+: codes v := by
  constructor
  · rintro ⟨c, hc⟩
    refine ⟨c.toNat, isScalar_toNat c, ?_⟩
    rw [← map_toNat_utf8EncodeChar]
    exact hc.map _
  · rintro ⟨v, hv, more, hmore⟩
    refine ⟨Char.ofNat v, ?_⟩
    have hcodes := map_toNat_utf8EncodeChar (Char.ofNat v)
    rw [toNat_ofNat_of_isScalar hv, ← hmore] at hcodes
    obtain ⟨front, rest, hsplit, hfront, -⟩ := List.map_eq_append_iff.mp hcodes
    rw [hsplit, eq_of_map_toNat_eq hfront]
    exact List.prefix_append _ _

theorem utf8EncodeChar_eq_of_codes {bytes : List UInt8} {v : Nat} (hv : IsScalar v)
    (h : bytes.map UInt8.toNat = codes v) : bytes = String.utf8EncodeChar (Char.ofNat v) := by
  apply eq_of_map_toNat_eq
  rw [h, map_toNat_utf8EncodeChar, toNat_ofNat_of_isScalar hv]

/-! ## 3. Inside of a character -/

/-- The decoder holds the first bytes of a character, and knows with which bytes they go on. -/
structure Holds (held : List UInt8) (begun : Begun) : Prop where
  reached : pushAll .between held [] = ([], .begun begun)
  next : ∀ b, Begins (held ++ [b]) ↔ begun.low ≤ b.toNat ∧ b.toNat ≤ begun.high

theorem first_of_lt_80 {b : Nat} (h : b < 0x80) : first b = ([Char.ofNat b], .between) := if_pos h

theorem first_of_lt_C2 {b : Nat} (h : 0x80 ≤ b) (h' : b < 0xC2) : first b = ([replacement], .between) := by
  unfold first
  rw [if_neg (by omega), if_pos h']

theorem first_of_lt_E0 {b : Nat} (h : 0xC2 ≤ b) (h' : b < 0xE0) :
    first b = ([], .begun ⟨1, 0x80, 0xBF, b - 0xC0⟩) := by
  unfold first
  rw [if_neg (by omega), if_neg (by omega), if_pos h']

theorem first_of_lt_F0 {b : Nat} (h : 0xE0 ≤ b) (h' : b < 0xF0) :
    first b = ([], .begun ⟨2, if b = 0xE0 then 0xA0 else 0x80, if b = 0xED then 0x9F else 0xBF, b - 0xE0⟩) := by
  unfold first
  rw [if_neg (by omega), if_neg (by omega), if_neg (by omega), if_pos h']

theorem first_of_lt_F5 {b : Nat} (h : 0xF0 ≤ b) (h' : b < 0xF5) :
    first b = ([], .begun ⟨3, if b = 0xF0 then 0x90 else 0x80, if b = 0xF4 then 0x8F else 0xBF, b - 0xF0⟩) := by
  unfold first
  rw [if_neg (by omega), if_neg (by omega), if_neg (by omega), if_neg (by omega), if_pos h']

theorem first_of_F5_le {b : Nat} (h : 0xF5 ≤ b) : first b = ([replacement], .between) := by
  unfold first
  rw [if_neg (by omega), if_neg (by omega), if_neg (by omega), if_neg (by omega), if_neg (by omega)]

theorem push_of_first {a : UInt8} {begun : Begun} (h : first a.toNat = ([], .begun begun)) :
    pushAll .between [a] [] = ([], .begun begun) := by
  show pushAll (first a.toNat).2 [] ((first a.toNat).1.reverse ++ []) = _
  rw [h]
  rfl

/-- The first byte of a character of two bytes. -/
theorem holds_first_of_two {a : UInt8} (h : 0xC2 ≤ a.toNat) (h' : a.toNat < 0xE0) :
    Holds [a] ⟨1, 0x80, 0xBF, a.toNat - 0xC0⟩ := by
  refine ⟨push_of_first (first_of_lt_E0 h h'), fun b => ?_⟩
  rw [begins_iff]
  show (∃ v, IsScalar v ∧ [a.toNat, b.toNat] <+: codes v) ↔ 0x80 ≤ b.toNat ∧ b.toNat ≤ 0xBF
  constructor
  · rintro ⟨v, hv, more, hmore⟩
    unfold codes at hmore
    split_ifs at hmore <;> simp at hmore <;> omega
  · rintro ⟨hl, hh⟩
    refine ⟨(a.toNat - 0xC0) * 64 + (b.toNat - 0x80), .inl (by omega), [], ?_⟩
    unfold codes
    rw [if_neg (by omega), if_pos (by omega)]
    simp
    omega

/-- The first byte of a character of three bytes. -/
theorem holds_first_of_three {a : UInt8} (h : 0xE0 ≤ a.toNat) (h' : a.toNat < 0xF0) :
    Holds [a] ⟨2, if a.toNat = 0xE0 then 0xA0 else 0x80, if a.toNat = 0xED then 0x9F else 0xBF,
      a.toNat - 0xE0⟩ := by
  refine ⟨push_of_first (first_of_lt_F0 h h'), fun b => ?_⟩
  rw [begins_iff]
  show (∃ v, IsScalar v ∧ [a.toNat, b.toNat] <+: codes v) ↔
    (if a.toNat = 0xE0 then 0xA0 else 0x80) ≤ b.toNat ∧ b.toNat ≤ if a.toNat = 0xED then 0x9F else 0xBF
  constructor
  · rintro ⟨v, hv, more, hmore⟩
    unfold IsScalar at hv
    unfold codes at hmore
    split_ifs at hmore <;> simp at hmore <;> split_ifs <;> omega
  · rintro ⟨hl, hh⟩
    have hl' : 0x80 ≤ b.toNat := by split_ifs at hl <;> omega
    have hh' : b.toNat ≤ 0xBF := by split_ifs at hh <;> omega
    refine ⟨(a.toNat - 0xE0) * 4096 + (b.toNat - 0x80) * 64, ?_, [0x80], ?_⟩
    · unfold IsScalar
      split_ifs at hl hh <;> omega
    · unfold codes
      have hlarge : 0x7FF < (a.toNat - 0xE0) * 4096 + (b.toNat - 0x80) * 64 := by
        split_ifs at hl <;> omega
      rw [if_neg (by omega), if_neg (by omega), if_pos (by omega)]
      simp
      omega

/-- The first byte of a character of four bytes. -/
theorem holds_first_of_four {a : UInt8} (h : 0xF0 ≤ a.toNat) (h' : a.toNat < 0xF5) :
    Holds [a] ⟨3, if a.toNat = 0xF0 then 0x90 else 0x80, if a.toNat = 0xF4 then 0x8F else 0xBF,
      a.toNat - 0xF0⟩ := by
  refine ⟨push_of_first (first_of_lt_F5 h h'), fun b => ?_⟩
  rw [begins_iff]
  show (∃ v, IsScalar v ∧ [a.toNat, b.toNat] <+: codes v) ↔
    (if a.toNat = 0xF0 then 0x90 else 0x80) ≤ b.toNat ∧ b.toNat ≤ if a.toNat = 0xF4 then 0x8F else 0xBF
  constructor
  · rintro ⟨v, hv, more, hmore⟩
    unfold IsScalar at hv
    unfold codes at hmore
    split_ifs at hmore <;> simp at hmore <;> split_ifs <;> omega
  · rintro ⟨hl, hh⟩
    have hl' : 0x80 ≤ b.toNat := by split_ifs at hl <;> omega
    have hh' : b.toNat ≤ 0xBF := by split_ifs at hh <;> omega
    refine ⟨(a.toNat - 0xF0) * 262144 + (b.toNat - 0x80) * 4096, ?_, [0x80, 0x80], ?_⟩
    · unfold IsScalar
      split_ifs at hl hh <;> omega
    · unfold codes
      have hlarge : 0xFFFF < (a.toNat - 0xF0) * 262144 + (b.toNat - 0x80) * 4096 := by
        split_ifs at hl <;> omega
      rw [if_neg (by omega), if_neg (by omega), if_neg (by omega)]
      simp
      omega

/-- A byte that goes on, while others are still owed, is held as well. -/
theorem reached_append {held : List UInt8} {begun : Begun} {b : UInt8}
    (h : pushAll .between held [] = ([], .begun begun)) (hl : begun.low ≤ b.toNat)
    (hh : b.toNat ≤ begun.high) (ho : 1 < begun.owed) :
    pushAll .between (held ++ [b]) [] =
      ([], .begun ⟨begun.owed - 1, 0x80, 0xBF, begun.bits * 64 + (b.toNat - 0x80)⟩) := by
  have hpush : push (.begun begun) b =
      ([], .begun ⟨begun.owed - 1, 0x80, 0xBF, begun.bits * 64 + (b.toNat - 0x80)⟩) := by
    unfold push
    simp only
    rw [if_pos ⟨hl, hh⟩, if_neg (by omega)]
  rw [pushAll_append, h]
  simp [pushAll, hpush]

theorem second_of_three {a b : UInt8} (h : 0xE0 ≤ a.toNat) (h' : a.toNat < 0xF0) (hb : Begins [a, b]) :
    0x80 ≤ b.toNat ∧ b.toNat ≤ 0xBF ∧ (a.toNat = 0xE0 → 0xA0 ≤ b.toNat) ∧
      (a.toNat = 0xED → b.toNat ≤ 0x9F) := by
  have hbounds := ((holds_first_of_three h h').next b).mp hb
  simp only at hbounds
  split_ifs at hbounds <;> omega

theorem second_of_four {a b : UInt8} (h : 0xF0 ≤ a.toNat) (h' : a.toNat < 0xF5) (hb : Begins [a, b]) :
    0x80 ≤ b.toNat ∧ b.toNat ≤ 0xBF ∧ (a.toNat = 0xF0 → 0x90 ≤ b.toNat) ∧
      (a.toNat = 0xF4 → b.toNat ≤ 0x8F) := by
  have hbounds := ((holds_first_of_four h h').next b).mp hb
  simp only at hbounds
  split_ifs at hbounds <;> omega

/-- Two bytes of a character of three bytes. -/
theorem holds_second_of_three {a b : UInt8} (h : 0xE0 ≤ a.toNat) (h' : a.toNat < 0xF0)
    (hb : Begins [a, b]) : Holds [a, b] ⟨1, 0x80, 0xBF, (a.toNat - 0xE0) * 64 + (b.toNat - 0x80)⟩ := by
  have hfirst := holds_first_of_three h h'
  obtain ⟨hl, hh⟩ := (hfirst.next b).mp hb
  refine ⟨reached_append hfirst.reached hl hh (Nat.le_add_left 2 _), fun c => ?_⟩
  obtain ⟨hl, hh, hleast, hgreatest⟩ := second_of_three h h' hb
  rw [begins_iff]
  show (∃ v, IsScalar v ∧ [a.toNat, b.toNat, c.toNat] <+: codes v) ↔ 0x80 ≤ c.toNat ∧ c.toNat ≤ 0xBF
  constructor
  · rintro ⟨v, hv, more, hmore⟩
    unfold codes at hmore
    split_ifs at hmore <;> simp at hmore <;> omega
  · rintro ⟨hlc, hhc⟩
    refine ⟨(a.toNat - 0xE0) * 4096 + (b.toNat - 0x80) * 64 + (c.toNat - 0x80), ?_, [], ?_⟩
    · unfold IsScalar
      omega
    · have hlarge : 0x7FF < (a.toNat - 0xE0) * 4096 + (b.toNat - 0x80) * 64 := by omega
      unfold codes
      rw [if_neg (by omega), if_neg (by omega), if_pos (by omega)]
      simp
      omega

/-- Two bytes of a character of four bytes. -/
theorem holds_second_of_four {a b : UInt8} (h : 0xF0 ≤ a.toNat) (h' : a.toNat < 0xF5)
    (hb : Begins [a, b]) : Holds [a, b] ⟨2, 0x80, 0xBF, (a.toNat - 0xF0) * 64 + (b.toNat - 0x80)⟩ := by
  have hfirst := holds_first_of_four h h'
  obtain ⟨hl, hh⟩ := (hfirst.next b).mp hb
  refine ⟨reached_append hfirst.reached hl hh (Nat.le_add_left 2 _), fun c => ?_⟩
  obtain ⟨hl, hh, hleast, hgreatest⟩ := second_of_four h h' hb
  have hlarge : 0xFFFF < (a.toNat - 0xF0) * 262144 + (b.toNat - 0x80) * 4096 := by omega
  have hsmall : (a.toNat - 0xF0) * 262144 + (b.toNat - 0x80) * 4096 < 0x10F001 := by omega
  rw [begins_iff]
  show (∃ v, IsScalar v ∧ [a.toNat, b.toNat, c.toNat] <+: codes v) ↔ 0x80 ≤ c.toNat ∧ c.toNat ≤ 0xBF
  constructor
  · rintro ⟨v, hv, more, hmore⟩
    unfold codes at hmore
    split_ifs at hmore <;> simp at hmore <;> omega
  · rintro ⟨hlc, hhc⟩
    refine ⟨(a.toNat - 0xF0) * 262144 + (b.toNat - 0x80) * 4096 + (c.toNat - 0x80) * 64, ?_, [0x80], ?_⟩
    · unfold IsScalar
      omega
    · unfold codes
      rw [if_neg (by omega), if_neg (by omega), if_neg (by omega)]
      simp
      omega

/-- Three bytes of a character of four bytes. -/
theorem holds_third_of_four {a b c : UInt8} (h : 0xF0 ≤ a.toNat) (h' : a.toNat < 0xF5)
    (hb : Begins [a, b]) (hc : Begins [a, b, c]) :
    Holds [a, b, c]
      ⟨1, 0x80, 0xBF, ((a.toNat - 0xF0) * 64 + (b.toNat - 0x80)) * 64 + (c.toNat - 0x80)⟩ := by
  have hsecond := holds_second_of_four h h' hb
  obtain ⟨hlc, hhc⟩ := (hsecond.next c).mp hc
  refine ⟨reached_append hsecond.reached hlc hhc Nat.one_lt_two, fun d => ?_⟩
  obtain ⟨hl, hh, hleast, hgreatest⟩ := second_of_four h h' hb
  -- What the first two bytes allow is between the numbers of three bytes and the largest character.
  have hlarge : 0xFFFF < (a.toNat - 0xF0) * 262144 + (b.toNat - 0x80) * 4096 := by omega
  have hsmall : (a.toNat - 0xF0) * 262144 + (b.toNat - 0x80) * 4096 < 0x10F001 := by omega
  simp only at hlc hhc
  rw [begins_iff]
  show (∃ v, IsScalar v ∧ [a.toNat, b.toNat, c.toNat, d.toNat] <+: codes v) ↔
    0x80 ≤ d.toNat ∧ d.toNat ≤ 0xBF
  -- The number is the one that the four bytes spell.
  constructor
  · rintro ⟨v, hv, more, hmore⟩
    unfold codes at hmore
    split_ifs at hmore <;> simp at hmore
    omega
  · rintro ⟨hld, hhd⟩
    refine ⟨(a.toNat - 0xF0) * 262144 + (b.toNat - 0x80) * 4096 + (c.toNat - 0x80) * 64 + (d.toNat - 0x80),
      ?_, [], ?_⟩
    · unfold IsScalar
      omega
    · unfold codes
      rw [if_neg (by omega), if_neg (by omega), if_neg (by omega)]
      simp
      omega

/-! ## 4. Whole characters and parts of them -/

/-- The last byte of a character completes it. -/
theorem pushAll_last {held : List UInt8} {begun : Begun} {b : UInt8}
    (h : pushAll .between held [] = ([], .begun begun)) (hl : begun.low ≤ b.toNat)
    (hh : b.toNat ≤ begun.high) (ho : begun.owed ≤ 1) :
    pushAll .between (held ++ [b]) [] = ([Char.ofNat (begun.bits * 64 + (b.toNat - 0x80))], .between) := by
  have hpush : push (.begun begun) b = ([Char.ofNat (begun.bits * 64 + (b.toNat - 0x80))], .between) := by
    unfold push
    simp only
    rw [if_pos ⟨hl, hh⟩, if_pos ho]
  rw [pushAll_append, h]
  simp [pushAll, hpush]

/-- The bytes of a character are decoded to the character. -/
theorem pushAll_utf8EncodeChar (c : Char) :
    pushAll .between (String.utf8EncodeChar c) [] = ([c], .between) := by
  have hcodes := map_toNat_utf8EncodeChar c
  have hbegins (front rest : List UInt8) (h : String.utf8EncodeChar c = front ++ rest) : Begins front :=
    ⟨c, h ▸ List.prefix_append front rest⟩
  have hchar {n : Nat} (h : n = c.toNat) : Char.ofNat n = c := by rw [h, Char.ofNat_toNat]
  generalize String.utf8EncodeChar c = bytes at hcodes hbegins ⊢
  have hscalar := isScalar_toNat c
  unfold IsScalar at hscalar
  unfold codes at hcodes
  -- By the number of bytes. All bytes but the last begin a character, and the last one completes it.
  split_ifs at hcodes with h₁ h₂ h₃
  · obtain ⟨a, rfl, ha⟩ := List.map_eq_singleton_iff.mp hcodes
    show pushAll (first a.toNat).2 [] ((first a.toNat).1.reverse ++ []) = _
    rw [first_of_lt_80 (by omega), hchar ha]
    rfl
  · obtain ⟨a, l, rfl, ha, hcodes⟩ := List.map_eq_cons_iff.mp hcodes
    obtain ⟨b, l, rfl, hb, hcodes⟩ := List.map_eq_cons_iff.mp hcodes
    obtain rfl := List.map_eq_nil_iff.mp hcodes
    have hfirst := holds_first_of_two (a := a) (by omega) (by omega)
    have hnext := (hfirst.next b).mp (hbegins [a, b] [] rfl)
    refine (pushAll_last hfirst.reached hnext.1 hnext.2 (Nat.le_refl 1)).trans ?_
    rw [hchar]
    simp only
    omega
  · obtain ⟨a, l, rfl, ha, hcodes⟩ := List.map_eq_cons_iff.mp hcodes
    obtain ⟨b, l, rfl, hb, hcodes⟩ := List.map_eq_cons_iff.mp hcodes
    obtain ⟨d, l, rfl, hd, hcodes⟩ := List.map_eq_cons_iff.mp hcodes
    obtain rfl := List.map_eq_nil_iff.mp hcodes
    have hsecond := holds_second_of_three (a := a) (b := b) (by omega) (by omega)
      (hbegins [a, b] [d] rfl)
    have hnext := (hsecond.next d).mp (hbegins [a, b, d] [] rfl)
    refine (pushAll_last hsecond.reached hnext.1 hnext.2 (Nat.le_refl 1)).trans ?_
    rw [hchar]
    simp only
    omega
  · obtain ⟨a, l, rfl, ha, hcodes⟩ := List.map_eq_cons_iff.mp hcodes
    obtain ⟨b, l, rfl, hb, hcodes⟩ := List.map_eq_cons_iff.mp hcodes
    obtain ⟨d, l, rfl, hd, hcodes⟩ := List.map_eq_cons_iff.mp hcodes
    obtain ⟨e, l, rfl, he, hcodes⟩ := List.map_eq_cons_iff.mp hcodes
    obtain rfl := List.map_eq_nil_iff.mp hcodes
    have hthird := holds_third_of_four (a := a) (b := b) (c := d) (by omega) (by omega)
      (hbegins [a, b] [d, e] rfl) (hbegins [a, b, d] [e] rfl)
    have hnext := (hthird.next e).mp (hbegins [a, b, d, e] [] rfl)
    refine (pushAll_last hthird.reached hnext.1 hnext.2 (Nat.le_refl 1)).trans ?_
    rw [hchar]
    simp only
    omega

theorem decode_utf8EncodeChar_append (c : Char) (rest : List UInt8) :
    decode (String.utf8EncodeChar c ++ rest) = c :: decode rest := by
  rw [decode_eq_decodeFrom, decodeFrom_append, pushAll_utf8EncodeChar]
  rfl

/-- **A text is decoded from its bytes.** -/
theorem decode_encode (text : List Char) : decode (encode text) = text := by
  induction text with
  | nil => rfl
  | cons c text ih =>
    have hencode : encode (c :: text) = String.utf8EncodeChar c ++ encode text := List.flatMap_cons
    rw [hencode, decode_utf8EncodeChar_append, ih]

/-- The beginning of a character that is not all of it is held by the decoder. -/
theorem Begins.exists_holds {bad : List UInt8} (h : Begins bad) (hne : bad ≠ [])
    (hnone : ∀ c : Char, bad ≠ String.utf8EncodeChar c) : ∃ begun, Holds bad begun := by
  obtain ⟨v, hv, more, hmore⟩ := begins_iff.mp h
  have hwhole : more ≠ [] := by
    rintro rfl
    rw [List.append_nil] at hmore
    exact hnone _ (utf8EncodeChar_eq_of_codes hv hmore)
  have hfront (front rest : List UInt8) (hsplit : bad = front ++ rest) : Begins front := by
    obtain ⟨c, hc⟩ := h
    exact ⟨c, (hsplit ▸ List.prefix_append front rest).trans hc⟩
  unfold IsScalar at hv
  unfold codes at hmore
  -- By the number of bytes that are there, and then by the number of those that the character has.
  match bad, hne with
  | [a], _ =>
    split_ifs at hmore with h₁ h₂ h₃
    · simp at hmore
      exact absurd hmore.2 hwhole
    · simp at hmore
      exact ⟨_, holds_first_of_two (by omega) (by omega)⟩
    · simp at hmore
      exact ⟨_, holds_first_of_three (by omega) (by omega)⟩
    · simp at hmore
      exact ⟨_, holds_first_of_four (by omega) (by omega)⟩
  | [a, b], _ =>
    split_ifs at hmore with h₁ h₂ h₃
    · simp at hmore
    · simp at hmore
      exact absurd hmore.2.2 hwhole
    · simp at hmore
      exact ⟨_, holds_second_of_three (by omega) (by omega) h⟩
    · simp at hmore
      exact ⟨_, holds_second_of_four (by omega) (by omega) h⟩
  | [a, b, c], _ =>
    split_ifs at hmore with h₁ h₂ h₃
    · simp at hmore
    · simp at hmore
    · simp at hmore
      exact absurd hmore.2.2.2 hwhole
    · simp at hmore
      exact ⟨_, holds_third_of_four (by omega) (by omega) (hfront [a, b] [c] rfl) h⟩
  | a :: b :: c :: d :: rest, _ =>
    split_ifs at hmore with h₁ h₂ h₃
    all_goals simp at hmore
    exact absurd hmore.2.2.2.2.2 hwhole

theorem decodeFrom_cons (decoder : Decoder) (b : UInt8) (bytes : List UInt8) :
    decodeFrom decoder (b :: bytes) = (push decoder b).1 ++ decodeFrom (push decoder b).2 bytes := by
  have happend := decodeFrom_append decoder [b] bytes
  rw [List.singleton_append] at happend
  rw [happend]
  simp [pushAll]

/-- Bytes that go on with no character are one replacement. -/
theorem Holds.decode_append {held : List UInt8} {begun : Begun} (h : Holds held begun)
    {rest : List UInt8} (hrest : ∀ b ∈ rest.head?, ¬ Begins (held ++ [b])) :
    decode (held ++ rest) = replacement :: decode rest := by
  rw [decode_eq_decodeFrom, decodeFrom_append, h.reached]
  show decodeFrom (.begun begun) rest = _
  cases rest with
  | nil => rfl
  | cons b rest =>
    have hno := hrest b rfl
    rw [h.next] at hno
    rw [decodeFrom_cons, decode_eq_decodeFrom, decodeFrom_cons]
    unfold push
    simp only
    rw [if_neg hno]
    split
    · next hsurrogate =>
      -- The byte may not follow, and is no beginning of a character either. Both are replaced later.
      unfold makesSurrogate at hsurrogate
      obtain ⟨⟨-, hl⟩, hh⟩ : (begun.high = 0x9F ∧ 0xA0 ≤ b.toNat) ∧ b.toNat ≤ 0xBF := by
        simpa using hsurrogate
      rw [first_of_lt_C2 (by omega) (by omega)]
      show decodeFrom .surrogate rest = replacement :: replacement :: decodeFrom .between rest
      cases rest with
      | nil => rfl
      | cons d rest =>
        rw [decodeFrom_cons, decodeFrom_cons]
        rfl
    · rfl

/-! ## 5. The decoder gives the text -/

/-- A byte that can go on begins a character. -/
theorem Holds.begins {held : List UInt8} {begun : Begun} (h : Holds held begun)
    (hlow : begun.low ≤ begun.high) (hhigh : begun.high < 256) : Begins held := by
  have hbyte : (UInt8.ofNat begun.low).toNat = begun.low := UInt8.toNat_ofNat_of_lt' (show begun.low < 256 by omega)
  have hnext := (h.next (UInt8.ofNat begun.low)).mpr (by rw [hbyte]; exact ⟨Nat.le_refl _, hlow⟩)
  obtain ⟨c, hc⟩ := hnext
  exact ⟨c, (List.prefix_append held _).trans hc⟩

/-- A byte that no character begins with is one replacement. -/
theorem decode_cons_of_not_begins {b : UInt8} (h : ¬ Begins [b]) (rest : List UInt8) :
    decode (b :: rest) = replacement :: decode rest := by
  -- The bytes that begin a character are three ranges and the ASCII ones. What lies between is replaced.
  have hreplaced : first b.toNat = ([replacement], .between) := by
    rcases Nat.lt_or_ge b.toNat 0x80 with h₁ | h₁
    · have hcodes : [b].map UInt8.toNat = codes b.toNat := (if_pos (by omega)).symm
      refine absurd (begins_iff.mpr ⟨b.toNat, .inl (by omega), ?_⟩) h
      exact ⟨[], (List.append_nil _).trans hcodes⟩
    rcases Nat.lt_or_ge b.toNat 0xC2 with h₂ | h₂
    · exact first_of_lt_C2 h₁ h₂
    rcases Nat.lt_or_ge b.toNat 0xE0 with h₃ | h₃
    · refine absurd ((holds_first_of_two h₂ h₃).begins ?_ ?_) h
      all_goals simp
    rcases Nat.lt_or_ge b.toNat 0xF0 with h₄ | h₄
    · refine absurd ((holds_first_of_three h₃ h₄).begins ?_ ?_) h
      all_goals
        simp only
        split_ifs <;> omega
    rcases Nat.lt_or_ge b.toNat 0xF5 with h₅ | h₅
    · refine absurd ((holds_first_of_four h₄ h₅).begins ?_ ?_) h
      all_goals
        simp only
        split_ifs <;> omega
    · exact first_of_F5_le h₅
  rw [decode_eq_decodeFrom, decodeFrom_cons]
  show (first b.toNat).1 ++ decodeFrom (first b.toNat).2 rest = _
  rw [hreplaced]
  rfl

/-- What is replaced as a whole, the decoder replaces. -/
theorem Decodes.eq_decode {bytes : List UInt8} {text : List Char} (h : Decodes bytes text) :
    text = decode bytes := by
  induction h with
  | nil => rfl
  | char c more ih => rw [decode_utf8EncodeChar_append, ih]
  | @replaced bad rest text ne none begins longest more ih =>
    rw [ih]
    symm
    have hend : ∀ b ∈ rest.head?, ¬ Begins (bad ++ [b]) := by
      intro b hb hbegins
      obtain ⟨rest, rfl⟩ := List.head?_eq_some_iff.mp hb
      have hle := longest (bad ++ [b]) ⟨rest, by simp⟩ hbegins
      rw [List.length_append, List.length_singleton] at hle
      omega
    have hnone (c : Char) : bad ≠ String.utf8EncodeChar c := by
      rintro rfl
      exact none c (List.prefix_append _ _)
    by_cases hbegins : Begins bad
    · obtain ⟨begun, hholds⟩ := hbegins.exists_holds ne hnone
      exact hholds.decode_append hend
    · obtain ⟨b, rfl⟩ := List.length_eq_one_iff.mp (begins.resolve_right hbegins)
      exact decode_cons_of_not_begins hbegins rest

/-- Every byte sequence has a text. -/
theorem exists_decodes (bytes : List UInt8) : ∃ text, Decodes bytes text := by
  induction hn : bytes.length using Nat.strongRecOn generalizing bytes with
  | _ n ih =>
    subst hn
    by_cases hempty : bytes = []
    · subst hempty
      exact ⟨[], .nil⟩
    by_cases hchar : ∃ c : Char, String.utf8EncodeChar c <+: bytes
    · obtain ⟨c, rest, rfl⟩ := hchar
      have hpos : 0 < (String.utf8EncodeChar c).length := by
        rw [String.length_utf8EncodeChar]
        exact Char.utf8Size_pos c
      obtain ⟨text, htext⟩ := ih rest.length (by rw [List.length_append]; omega) rest rfl
      exact ⟨_, .char c htext⟩
    · -- One of the finitely many beginnings is the longest.
      classical
      let begins (n : Nat) : Prop := Begins (bytes.take n)
      let size := max 1 (Nat.findGreatest begins bytes.length)
      have hlength : 0 < bytes.length := List.length_pos_iff.mpr hempty
      have hsize : (bytes.take size).length = size := by
        have hle := Nat.findGreatest_le (P := begins) bytes.length
        rw [List.length_take]
        omega
      have hrest : (bytes.drop size).length < bytes.length := by
        rw [List.length_drop]
        omega
      obtain ⟨text, htext⟩ := ih _ hrest (bytes.drop size) rfl
      refine ⟨replacement :: text, ?_⟩
      rw [← List.take_append_drop size bytes] at hchar ⊢
      refine .replaced ?_ (not_exists.mp hchar) ?_ ?_ htext
      · refine List.length_pos_iff.mp ?_
        omega
      · rw [hsize]
        rcases Nat.eq_zero_or_pos (Nat.findGreatest begins bytes.length) with hzero | hpos
        · exact .inl (by omega)
        · have hgreatest : size = Nat.findGreatest begins bytes.length := by omega
          have hbegins : begins (Nat.findGreatest begins bytes.length) :=
            Nat.findGreatest_of_ne_zero rfl (Nat.ne_of_gt hpos)
          rw [hgreatest]
          exact .inr hbegins
      · intro longer hprefix hbegins
        rw [List.take_append_drop] at hprefix
        rw [hsize]
        have htake : begins longer.length := by
          show Begins (bytes.take longer.length)
          rwa [← List.prefix_iff_eq_take.mp hprefix]
        have hle := Nat.le_findGreatest hprefix.length_le htake
        omega

/-- **The decoder gives the text of a byte sequence**, and there is only one. -/
theorem decodes_iff {bytes : List UInt8} {text : List Char} : Decodes bytes text ↔ text = decode bytes := by
  refine ⟨Decodes.eq_decode, ?_⟩
  rintro rfl
  obtain ⟨text, htext⟩ := exists_decodes bytes
  rw [← htext.eq_decode]
  exact htext

/-! ## 6. Nothing is swallowed -/

theorem first_eq_nil {b : Nat} (h : (first b).1 = []) : finish (first b).2 ≠ [] := by
  unfold first at h ⊢
  repeat' split
  all_goals simp_all [finish]

/-- A byte that completes no character is held back. -/
theorem finish_push_ne_nil {decoder : Decoder} {b : UInt8} (h : (push decoder b).1 = []) :
    finish (push decoder b).2 ≠ [] := by
  cases decoder with
  | between => exact first_eq_nil h
  | surrogate => exact absurd h (List.cons_ne_nil _ _)
  | begun begun =>
    simp only [push] at h ⊢
    by_cases hbounds : begun.low ≤ b.toNat ∧ b.toNat ≤ begun.high
    · rw [if_pos hbounds] at h ⊢
      by_cases howed : begun.owed ≤ 1
      · rw [if_pos howed] at h
        cases h
      · rw [if_neg howed]
        exact List.cons_ne_nil _ _
    · rw [if_neg hbounds] at h ⊢
      by_cases hsurrogate : makesSurrogate begun b.toNat = true
      · rw [if_pos hsurrogate]
        exact List.cons_ne_nil _ _
      · rw [if_neg hsurrogate] at h
        cases h

/-- What a decoder holds back comes out at last. -/
theorem decodeFrom_ne_nil_of_finish {decoder : Decoder} (h : finish decoder ≠ []) (bytes : List UInt8) :
    decodeFrom decoder bytes ≠ [] := by
  induction bytes generalizing decoder with
  | nil => exact h
  | cons b bytes ih =>
    rw [decodeFrom_cons]
    intro hnil
    obtain ⟨hpush, hrest⟩ := List.append_eq_nil_iff.mp hnil
    exact ih (finish_push_ne_nil hpush) hrest

/-- **Some text comes of every byte.** -/
theorem decodeFrom_ne_nil {decoder : Decoder} {bytes : List UInt8} (h : bytes ≠ []) :
    decodeFrom decoder bytes ≠ [] := by
  obtain ⟨b, rest, rfl⟩ := List.exists_cons_of_ne_nil h
  rw [decodeFrom_cons]
  intro hnil
  obtain ⟨hpush, hrest⟩ := List.append_eq_nil_iff.mp hnil
  exact decodeFrom_ne_nil_of_finish (finish_push_ne_nil hpush) rest hrest

end Shell.Text.Utf8
