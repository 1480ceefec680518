import Planwright.Text.Printable

/-! The width of text on a terminal: most characters take one column, ideographs and pictographs two, control
    characters and combining marks none. -/

namespace Planwright.Text

def zeroWidth : List Nat :=
  [0, 32, 95, 33, 13, 1, 594, 112, 275, 5, 647, 1, 219, 9, 1036, 1, 3, 1, 251, 2, 1627, 3, 1195, 4, 624, 1, 48,
   17, 170, 9, 588, 58, 1, 5, 523, 5, 24, 7, 59, 6, 96, 33, 3070, 3, 238, 32, 665, 2, 30164, 4, 1, 10, 32, 2,
   80, 2, 494, 18, 21774, 16, 16, 16, 207, 1, 249, 3, 2, 2, 509, 1, 376, 5, 2864, 2, 153, 11, 943, 2, 57, 2, 41,
   7, 3, 5, 22395, 5, 26224, 5, 3, 6, 8, 8, 2, 7, 30, 4, 148, 3, 3515, 7, 1, 17, 2, 7, 1, 2, 1, 5, 2213, 7]

def doubleWidth : List Nat :=
  [4352, 96, 4538, 2, 13, 2, 190, 4, 3, 1, 2, 1, 521, 2, 21, 2, 50, 12, 43, 1, 19, 1, 13, 1, 8, 2, 17, 2, 5, 2,
   8, 1, 5, 1, 21, 1, 7, 2, 1, 1, 4, 1, 2, 1, 7, 1, 4, 2, 28, 1, 35, 1, 1, 1, 4, 3, 1, 1, 61, 3, 24, 1, 14, 1,
   859, 2, 51, 1, 4, 1, 810, 26, 1, 89, 12, 214, 26, 12, 4, 63, 2, 86, 4, 101, 5, 43, 1, 94, 1, 84, 12, 47, 1,
   40, 8, 7024, 64, 22157, 3, 55, 1177, 29, 643, 11172, 8540, 512, 784, 10, 22, 35, 1, 19, 1, 4, 149, 96, 127,
   7, 28665, 5, 11, 2, 14, 6136, 8, 1238, 42, 9, 8951, 287, 49, 3, 17, 4, 8, 396, 15624, 1, 202, 1, 190, 1, 2,
   10, 101, 3, 13, 44, 4, 9, 7, 2, 14, 6, 154, 33, 12, 9, 1, 70, 1, 22, 12, 43, 4, 5, 12, 17, 3, 1, 3, 71, 1, 1,
   1, 187, 2, 63, 13, 4, 1, 24, 18, 1, 26, 2, 13, 1, 86, 85, 48, 70, 6, 1, 3, 3, 2, 3, 19, 2, 7, 9, 227, 12,
   288, 47, 1, 10, 1, 50, 1, 82, 1, 51, 112, 5, 3, 3, 5, 7, 9, 25, 7, 7, 9, 3, 13, 7, 1321, 65534, 2, 65534]

def charWidth (c : Char) : Nat :=
  let n := c.toNat
  if 0x20 ≤ n && n < 0x7f then 1
  else if inRuns zeroWidth n then 0
  else if inRuns doubleWidth n then 2
  else 1

def width (s : String) : Nat := s.toList.foldl (fun n c => n + charWidth c) 0

def isBlank (c : Char) : Bool :=
  let n := c.toNat
  (9 ≤ n && n ≤ 13) || n == 0x20 || n == 0x85 || n == 0xa0 || n == 0x1680 || (0x2000 ≤ n && n ≤ 0x200a)
    || n == 0x2028 || n == 0x2029 || n == 0x202f || n == 0x205f || n == 0x3000

def words (s : String) : List String :=
  ((s.toList.splitOnP isBlank).filter (!·.isEmpty)).map String.ofList

end Planwright.Text
