import Aegis.Scalar
import Aegis.Tally

/-!
# Statistics of a command line

`command_stats` of the session plugin: length, tokens, entropy and the salted
hash of a line. The binary logarithm, SHA-256 and its hexadecimal rendering are
parameters.
-/

namespace Aegis

/-- The functions of other libraries that go into the statistics. -/
structure Primitives (F : Type) where
  log2 : F → F
  sha256 : List UInt8 → List UInt8
  hexEncode : List UInt8 → String

/-- `char::is_whitespace`. -/
def isWhitespace (c : Char) : Bool :=
  let n := c.toNat
  (0x09 ≤ n && n ≤ 0x0d) || n = 0x20 || n = 0x85 || n = 0xa0 || n = 0x1680 ||
    (0x2000 ≤ n && n ≤ 0x200a) || n = 0x2028 || n = 0x2029 || n = 0x202f || n = 0x205f ||
    n = 0x3000

def splitWhitespace (cs : List Char) : List (List Char) :=
  (cs.splitOnP isWhitespace).filter fun token => !token.isEmpty

structure CommandStats (F : Type) where
  commandLen : UInt32
  tokenCount : UInt32
  shannonEntropy : F
  commandHash : String

section Stats
variable {F : Type} [F64 F] (P : Primitives F)

def surprisal (p : F) : F := -p * P.log2 p

/-- Bits per character; the counts are summed in ascending order. -/
def shannonEntropy (cs : List Char) : F :=
  if cs.length = 0 then F64.lit 0
  else F64.sum ((sortedCounts cs).map fun c =>
    surprisal P (F64.ofNat c / F64.ofNat cs.length))

def commandStats (command salt : String) : CommandStats F where
  commandLen := UInt32.ofNat command.toList.length
  tokenCount := UInt32.ofNat (splitWhitespace command.toList).length
  shannonEntropy := shannonEntropy P command.toList
  commandHash := P.hexEncode (P.sha256
    (salt.toUTF8.toList ++ [0] ++ command.toUTF8.toList))

end Stats
end Aegis
