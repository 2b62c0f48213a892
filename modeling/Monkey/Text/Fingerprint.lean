namespace Monkey.Text

/-- One byte is mixed in by exclusive or, then spread by a multiplication modulo `2 ^ 64`. -/
def mix (hash : UInt64) (byte : UInt8) : UInt64 :=
  (hash ^^^ byte.toUInt64) * 0x100000001b3

/-- The 64-bit FNV-1a hash of the UTF-8 form of a text. -/
def fingerprint (s : String) : UInt64 :=
  s.toUTF8.data.foldl mix 0xcbf29ce484222325

end Monkey.Text
