import ScaleCalls.Solidity.Header
import ScaleCalls.Solidity.Word.Function

/-!
# The library of primitive codecs

The Solidity library that generated code calls for every primitive. Its functions
follow the byte layouts of `ScaleCalls.Scale`.

## Main definitions

- `CodecLibrary.littleEndian`, `CodecLibrary.compactUint` — the functions on words
- `CodecLibrary.text` — the file of the library
-/

namespace ScaleCalls.Solidity.CodecLibrary

/-- A function that returns bytes, behind an empty line. -/
def function (name parameters : String) (body : List Code) : List Code :=
  [.blank, .block (functionHead name parameters "bytes memory") body]

/-- The function for an unsigned integer of some bits. -/
def integer (bits : Nat) : List Code :=
  function s!"u{bits}LE" s!"uint{bits} v" [.line s!"return _le(v, {bits / 8});"]

/-- The low bytes of a number, least significant first. -/
def littleEndian : Word.Function where
  name := "_le"
  parameters := ["v", "len"]
  helper := true
  body :=
    [.change (.allocate (.var "len")),
      .loop (.declare "i" (.number 0)) (.less (.var "i") (.var "len")) (.increment "i")
        [.store (.var "i")
          (.apply .shiftRight (.var "v") (.apply .times (.number 8) (.var "i")))]]

/-- The compact form in a number of bytes, for numbers below a power of two. -/
def shortMode (bits : Nat) (value : Word.Expr) (width : Nat) : Word.Statement :=
  .ifReturn (.less (.var "v") (.apply .shiftLeft (.number 1) (.number bits)))
    (.call "_le" [value, .number width])

def compactUint : Word.Function where
  name := "compactUint"
  parameters := ["v"]
  helper := false
  body :=
    let above : Word.Expr := .apply .shiftLeft (.var "v") (.number 2)
    let excess : Word.Expr := .apply .minus (.var "len") (.number 4)
    [shortMode 6 above 1,
      shortMode 14 (.apply .or above (.number 1)) 2,
      shortMode 30 (.apply .or above (.number 2)) 4,
      .change (.declare "len" (.number 0)),
      .loop (.declare "t" (.var "v")) (.different (.var "t") (.number 0))
        (.shiftRight "t" 8) [.increment "len"],
      .result (.concat
        (.lowByte (.apply .or (.apply .shiftLeft excess (.number 2)) (.number 3)))
        (.call "_le" [.var "v", .var "len"]))]

def functions : List Code :=
  [.line "/// Little-endian bytes of `v`, exactly `len` bytes wide.", littleEndian.code]
    ++ function "u8" "uint8 v" [.line "return abi.encodePacked(v);"]
    ++ [16, 32, 64, 128, 256].flatMap integer
    ++ [.blank, compactUint.code]
    ++ function "vecU8" "bytes memory b" [.line "return bytes.concat(compactUint(b.length), b);"]
    ++ function "boolean" "bool b"
        [.line "if (b) return hex\"01\";", .line "return hex\"00\";"]
    ++ function "optionNone" "" [.line "return hex\"00\";"]
    ++ function "optionSome" "bytes memory inner"
        [.line "return bytes.concat(hex\"01\", inner);"]
    ++ function "fixedBytes" "bytes memory b, uint256 len"
        [.line "require(b.length == len, \"fixed length mismatch\");", .line "return b;"]
    ++ function "accountId32" "bytes32 account" [.line "return abi.encodePacked(account);"]
    ++ (.blank :: .line "/// `MultiAddress::Id(account)`." ::
        (function "multiAddressId32" "bytes32 account"
          [.line "return abi.encodePacked(uint8(0), account);"]).tail)
    ++ function "callIndex" "uint8 palletIndex, uint8 callIndex_"
        [.line "return abi.encodePacked(palletIndex, callIndex_);"]

def code (name : String) (header : Header) : List Code :=
  header.code ++
    [.line "/// @title SCALE primitive encoders", .block s!"library {name}" functions]

def text (name : String) (header : Header) : String := Code.text (code name header)

end ScaleCalls.Solidity.CodecLibrary
