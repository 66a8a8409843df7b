/-! # White space

The characters with the Unicode property `White_Space`, and words separated by commas with the
white space around them removed.
-/

namespace ArithCompiler

def isWhiteSpace (c : Char) : Bool :=
  let n := c.toNat
  (9 ≤ n && n ≤ 13) || n = 0x20 || n = 0x85 || n = 0xa0 || n = 0x1680 ||
    (0x2000 ≤ n && n ≤ 0x200a) || n = 0x2028 || n = 0x2029 || n = 0x202f || n = 0x205f ||
    n = 0x3000

/-- Text without the white space at its two ends. -/
def trimWhiteSpace (text : List Char) : List Char :=
  ((text.dropWhile isWhiteSpace).reverse.dropWhile isWhiteSpace).reverse

/-- The trimmed words between commas; words with nothing in them are left out. -/
def commaWords (text : String) : List String :=
  (((text.toList.splitOn ',').map trimWhiteSpace).filter (!·.isEmpty)).map String.ofList

end ArithCompiler
