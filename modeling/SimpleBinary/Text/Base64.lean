/-!
Bytes written in base 64.

Four letters stand for three bytes. Up to two equals signs fill the last four letters up, and what comes
after them is not read. Characters that are neither are passed over, and so are equals signs where
nothing has to be filled up. The letters must not end within four of them otherwise.
-/

set_option autoImplicit false

namespace SimpleBinary.Text.Base64

/-- The letters by the numbers that they stand for. -/
def letters : List Char :=
  "ABCDEFGHIJKLMNOPQRSTUVWXYZabcdefghijklmnopqrstuvwxyz0123456789+/".toList

/-- The six bits that a letter stands for. -/
def sextet? (c : Char) : Option Nat :=
  letters.idxOf? c

/-- The bytes of the letters that are left. Of the letters before them `width` bits are held that
make up no byte yet, and `signs` equals signs have come since the last one. If two or four bits are
held, one sign is asked for every two of them. -/
def decodeFrom (width held signs : Nat) : List Char → Option (List UInt8)
  | [] => if width = 0 then some [] else none
  | c :: rest =>
    if c = '=' then
      if width = 2 || width = 4 then
        if width ≤ 2 * (signs + 1) then some [] else decodeFrom width held (signs + 1) rest
      else
        decodeFrom width held signs rest
    else
      match sextet? c with
      | none => decodeFrom width held signs rest
      | some bits =>
        let held := held * 64 + bits
        if width < 2 then
          decodeFrom (width + 6) held 0 rest
        else
          (decodeFrom (width - 2) (held % Nat.pow 2 (width - 2)) 0 rest).map
            ((held / Nat.pow 2 (width - 2)).toUInt8 :: ·)

/-- The bytes that a text stands for. -/
def decode? (cs : List Char) : Option (List UInt8) :=
  decodeFrom 0 0 0 cs

end SimpleBinary.Text.Base64
