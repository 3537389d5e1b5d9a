namespace PdfFunctions.Text

/-- The characters of the white space property, beyond ASCII too. -/
def isSpace (c : Char) : Bool :=
  let n := c.toNat
  (0x09 ≤ n && n ≤ 0x0D) || n == 0x20 || n == 0x85 || n == 0xA0 || n == 0x1680 ||
    (0x2000 ≤ n && n ≤ 0x200A) || n == 0x2028 || n == 0x2029 || n == 0x202F || n == 0x205F ||
    n == 0x3000

/-- The words in `cs`; the reversed `word` stands in front, and the reversed `found` before it. -/
def wordsFrom (found : List String) (word : List Char) : List Char → List String
  | [] => (close found word).reverse
  | c :: cs => if isSpace c then wordsFrom (close found word) [] cs else wordsFrom found (c :: word) cs
where
  -- adds a word that is not empty
  close (found : List String) (word : List Char) : List String :=
    if word.isEmpty then found else String.ofList word.reverse :: found

def words (s : String) : List String := wordsFrom [] [] s.toList

end PdfFunctions.Text
