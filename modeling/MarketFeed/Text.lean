/-!
# Bytes as text
-/

namespace MarketFeed

/-- The text that the bytes encode in UTF-8, if they are well-formed. -/
def utf8? (bytes : List UInt8) : Option String := String.fromUTF8? bytes.toByteArray

def utf8Bytes (text : String) : List UInt8 := text.toUTF8.data.toList

end MarketFeed
