namespace Reckon.Text

/-- Ranges of fullwidth and halfwidth code points, each with the ordinary form of its first one. -/
def widthRanges : List (Nat × Nat × Nat) :=
  [(0x3000, 0x3000, 0x20), (0xFF01, 0xFF5E, 0x21), (0xFF5F, 0xFF60, 0x2985),
    (0xFF61, 0xFF61, 0x3002), (0xFF62, 0xFF63, 0x300C), (0xFF64, 0xFF64, 0x3001),
    (0xFF65, 0xFF65, 0x30FB), (0xFF66, 0xFF66, 0x30F2), (0xFF67, 0xFF67, 0x30A1),
    (0xFF68, 0xFF68, 0x30A3), (0xFF69, 0xFF69, 0x30A5), (0xFF6A, 0xFF6A, 0x30A7),
    (0xFF6B, 0xFF6B, 0x30A9), (0xFF6C, 0xFF6C, 0x30E3), (0xFF6D, 0xFF6D, 0x30E5),
    (0xFF6E, 0xFF6E, 0x30E7), (0xFF6F, 0xFF6F, 0x30C3), (0xFF70, 0xFF70, 0x30FC),
    (0xFF71, 0xFF71, 0x30A2), (0xFF72, 0xFF72, 0x30A4), (0xFF73, 0xFF73, 0x30A6),
    (0xFF74, 0xFF74, 0x30A8), (0xFF75, 0xFF76, 0x30AA), (0xFF77, 0xFF77, 0x30AD),
    (0xFF78, 0xFF78, 0x30AF), (0xFF79, 0xFF79, 0x30B1), (0xFF7A, 0xFF7A, 0x30B3),
    (0xFF7B, 0xFF7B, 0x30B5), (0xFF7C, 0xFF7C, 0x30B7), (0xFF7D, 0xFF7D, 0x30B9),
    (0xFF7E, 0xFF7E, 0x30BB), (0xFF7F, 0xFF7F, 0x30BD), (0xFF80, 0xFF80, 0x30BF),
    (0xFF81, 0xFF81, 0x30C1), (0xFF82, 0xFF82, 0x30C4), (0xFF83, 0xFF83, 0x30C6),
    (0xFF84, 0xFF84, 0x30C8), (0xFF85, 0xFF8A, 0x30CA), (0xFF8B, 0xFF8B, 0x30D2),
    (0xFF8C, 0xFF8C, 0x30D5), (0xFF8D, 0xFF8D, 0x30D8), (0xFF8E, 0xFF8E, 0x30DB),
    (0xFF8F, 0xFF93, 0x30DE), (0xFF94, 0xFF94, 0x30E4), (0xFF95, 0xFF95, 0x30E6),
    (0xFF96, 0xFF9B, 0x30E8), (0xFF9C, 0xFF9C, 0x30EF), (0xFF9D, 0xFF9D, 0x30F3),
    (0xFF9E, 0xFF9F, 0x3099), (0xFFA0, 0xFFA0, 0x3164), (0xFFA1, 0xFFBE, 0x3131),
    (0xFFC2, 0xFFC7, 0x314F), (0xFFCA, 0xFFCF, 0x3155), (0xFFD2, 0xFFD7, 0x315B),
    (0xFFDA, 0xFFDC, 0x3161), (0xFFE0, 0xFFE1, 0xA2), (0xFFE2, 0xFFE2, 0xAC),
    (0xFFE3, 0xFFE3, 0xAF), (0xFFE4, 0xFFE4, 0xA6), (0xFFE5, 0xFFE5, 0xA5),
    (0xFFE6, 0xFFE6, 0x20A9), (0xFFE8, 0xFFE8, 0x2502), (0xFFE9, 0xFFEC, 0x2190),
    (0xFFED, 0xFFED, 0x25A0), (0xFFEE, 0xFFEE, 0x25CB)]

def foldChar (c : Char) : Char :=
  match widthRanges.find? fun (first, last, _) => first ≤ c.toNat && c.toNat ≤ last with
  | some (first, _, target) => Char.ofNat (target + (c.toNat - first))
  | none => c

/-- Replaces each fullwidth or halfwidth character by its ordinary form. -/
def foldWidth (s : String) : String := String.ofList (s.toList.map foldChar)

end Reckon.Text
