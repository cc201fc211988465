import PolarWG.Config

/-!
# Keys as text

`b64_encode_32`, which the client prints keys with; `decode_base64_32` reads them back.
-/

namespace PolarWG

def b64Table : Text :=
  "ABCDEFGHIJKLMNOPQRSTUVWXYZabcdefghijklmnopqrstuvwxyz0123456789+/".toList

def b64Char (v : ℕ) : Char := b64Table.getD (v &&& 0x3f) 'A'

/-- Three bytes at a time; of two bytes left over, three characters and a `=`. -/
def b64Encode : Bytes → Text
  | a :: b :: c :: rest =>
    let v := a.toNat <<< 16 ||| b.toNat <<< 8 ||| c.toNat
    b64Char (v >>> 18) :: b64Char (v >>> 12) :: b64Char (v >>> 6) :: b64Char v :: b64Encode rest
  | [a, b] =>
    let v := a.toNat <<< 16 ||| b.toNat <<< 8
    [b64Char (v >>> 18), b64Char (v >>> 12), b64Char (v >>> 6), '=']
  | _ => []

end PolarWG
