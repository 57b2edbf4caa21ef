import SparqlTokens.Pattern.CharSet
/-!
Characters by name. The classes of ASCII are fixed. What is a digit, a blank, part of a word or of
any other property among all characters is for an engine to know: its tables change from version to
version, and a pattern is read with whatever they hold.
-/

namespace SparqlTokens.Pattern

abbrev Ranges := List (Char × Char)

namespace Ranges

def contains (ranges : Ranges) (c : Char) : Bool := ranges.any fun r => r.1 ≤ c && c ≤ r.2

def toSet (ranges : Ranges) (negated : Bool) : CharSet :=
  if negated then (CharSet.ofRanges ranges).compl else .ofRanges ranges

end Ranges

structure Properties where
  digits : Ranges
  spaces : Ranges
  words : Ranges
  /-- Letters may begin the name of a group, and numbers go on with it. -/
  letters : Ranges
  numbers : Ranges
  /-- By what names a property: a single letter, or the text between braces. -/
  named? : List Char → Option Ranges

def asciiClasses : List (List Char × Ranges) :=
  [("alnum".toList, [('0', '9'), ('A', 'Z'), ('a', 'z')]),
    ("alpha".toList, [('A', 'Z'), ('a', 'z')]),
    ("ascii".toList, [('\x00', '\x7f')]),
    ("blank".toList, [('\t', '\t'), (' ', ' ')]),
    ("cntrl".toList, [('\x00', '\x1f'), ('\x7f', '\x7f')]),
    ("digit".toList, [('0', '9')]),
    ("graph".toList, [('!', '~')]),
    ("lower".toList, [('a', 'z')]),
    ("print".toList, [(' ', '~')]),
    ("punct".toList, [('!', '/'), (':', '@'), ('[', '\x60'), ('\x7b', '~')]),
    ("space".toList, [('\t', '\r'), (' ', ' ')]),
    ("upper".toList, [('A', 'Z')]),
    ("word".toList, [('0', '9'), ('A', 'Z'), ('_', '_'), ('a', 'z')]),
    ("xdigit".toList, [('0', '9'), ('A', 'F'), ('a', 'f')])]

/-- A class of ASCII by its name between colons, behind a circumflex if its complement is meant. -/
def asciiClass? (word : List Char) : Option CharSet :=
  asciiClasses.findSome? fun (name, ranges) =>
    if word = ':' :: name ++ [':'] then some (ranges.toSet false)
    else if word = ':' :: '^' :: name ++ [':'] then some (ranges.toSet true)
    else none

namespace Properties

variable (properties : Properties)

def beginsName (c : Char) : Bool := c = '_' || properties.letters.contains c

def continuesName (c : Char) : Bool :=
  c ∈ ['_', '.', '[', ']'] || properties.letters.contains c || properties.numbers.contains c

end Properties

end SparqlTokens.Pattern
