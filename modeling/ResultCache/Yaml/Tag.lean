/-!
Tags of YAML values. A tag is kept as bytes, since its escapes may spell any bytes at all, also
such as are not UTF-8.
-/

namespace ResultCache.Yaml

structure Tag where
  bytes : List UInt8
  deriving DecidableEq

namespace Tag

def asciiBytes (text : List Char) : List UInt8 := text.map Char.toUInt8

def named (name : String) : Tag := ⟨asciiBytes name.toList⟩

def null : Tag := named "tag:yaml.org,2002:null"

def bool : Tag := named "tag:yaml.org,2002:bool"

def int : Tag := named "tag:yaml.org,2002:int"

def float : Tag := named "tag:yaml.org,2002:float"

/-- The bytes in front of the first zero. What follows a zero does not count. -/
def beforeZero (bytes : List UInt8) : List UInt8 := bytes.takeWhile (· != 0)

def isMarked (t : Tag) : Bool := t.bytes.head? == some '!'.toUInt8

/-- A tag that only the writer of the text understands. Its name has to be readable: bytes after
the mark that are not UTF-8 name nothing. -/
def isLocal (t : Tag) : Bool := t.isMarked && t.bytes.tail.toByteArray.validateUTF8

example : (named "!x").isLocal = true := by decide +kernel
example : (Tag.mk [0x21, 0xC0, 0x80]).isLocal = false := by decide +kernel

end Tag
end ResultCache.Yaml
