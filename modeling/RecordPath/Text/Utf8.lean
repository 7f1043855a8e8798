namespace RecordPath.Text

structure Unfinished where
  /-- The bits read so far. -/
  bits : Nat
  /-- The range of the next byte. -/
  low : UInt8
  high : UInt8
  /-- How many bytes are missing after the next one. -/
  missing : Nat

def replacement : Char := '\uFFFD'

/-- What a byte begins: a character, a part of one, or neither. After some first bytes the range
of the second is narrower, which rules out surrogates, numbers beyond Unicode, and characters
written in more bytes than they need. -/
def beginUtf8 (b : UInt8) : Char ⊕ Unfinished :=
  if b < 0x80 then .inl (Char.ofNat b.toNat)
  else if 0xC2 ≤ b ∧ b ≤ 0xDF then .inr ⟨b.toNat - 0xC0, 0x80, 0xBF, 0⟩
  else if 0xE0 ≤ b ∧ b ≤ 0xEF then
    .inr ⟨b.toNat - 0xE0, if b = 0xE0 then 0xA0 else 0x80, if b = 0xED then 0x9F else 0xBF, 1⟩
  else if 0xF0 ≤ b ∧ b ≤ 0xF4 then
    .inr ⟨b.toNat - 0xF0, if b = 0xF0 then 0x90 else 0x80, if b = 0xF4 then 0x8F else 0xBF, 2⟩
  else .inl replacement

def resumeUtf8 : Option Unfinished → List UInt8 → List Char
  | none, [] => []
  | some _, [] => [replacement]
  | none, b :: bs =>
    match beginUtf8 b with
    | .inl c => c :: resumeUtf8 none bs
    | .inr u => resumeUtf8 (some u) bs
  | some u, b :: bs =>
    if u.low ≤ b ∧ b ≤ u.high then
      let bits := u.bits * 64 + (b.toNat - 0x80)
      match u.missing with
      | 0 => Char.ofNat bits :: resumeUtf8 none bs
      | n + 1 => resumeUtf8 (some ⟨bits, 0x80, 0xBF, n⟩) bs
    else
      replacement ::
        match beginUtf8 b with
        | .inl c => c :: resumeUtf8 none bs
        | .inr u => resumeUtf8 (some u) bs

/-- Bytes that are not UTF-8 read as replacement characters: one for each longest run that begins
like a character and does not go on like one. -/
def decodeUtf8 (bs : List UInt8) : List Char := resumeUtf8 none bs

end RecordPath.Text
