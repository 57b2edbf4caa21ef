/-!
Operators and delimiters, their spelling, and the names they go by in listings.
-/

namespace SparqlTokens

inductive Punct where
  | lBrace
  | rBrace
  | lParen
  | rParen
  | lBracket
  | rBracket
  | dot
  | comma
  | semicolon
  | doubleCaret
  | or
  | and
  | eq
  | ne
  | lt
  | gt
  | le
  | ge
  | plus
  | minus
  | star
  | slash
  | bang
  | question
  | pipe
  | caret
  deriving DecidableEq, Repr

namespace Punct

def all : List Punct :=
  [lBrace, rBrace, lParen, rParen, lBracket, rBracket, dot, comma, semicolon, doubleCaret, or, and,
    eq, ne, lt, gt, le, ge, plus, minus, star, slash, bang, question, pipe, caret]

def text : Punct → String
  | lBrace => "\x7b"
  | rBrace => "\x7d"
  | lParen => "("
  | rParen => ")"
  | lBracket => "["
  | rBracket => "]"
  | dot => "."
  | comma => ","
  | semicolon => ";"
  | doubleCaret => "^^"
  | or => "||"
  | and => "&&"
  | eq => "="
  | ne => "!="
  | lt => "<"
  | gt => ">"
  | le => "<="
  | ge => ">="
  | plus => "+"
  | minus => "-"
  | star => "*"
  | slash => "/"
  | bang => "!"
  | question => "?"
  | pipe => "|"
  | caret => "^"

def ofText? (s : String) : Option Punct := all.find? (·.text = s)

def name : Punct → String
  | lBrace => "l_brace"
  | rBrace => "r_brace"
  | lParen => "l_paren"
  | rParen => "r_paren"
  | lBracket => "l_bracket"
  | rBracket => "r_bracket"
  | dot => "dot"
  | comma => "comma"
  | semicolon => "semicolon"
  | doubleCaret => "double_caret"
  | or => "or"
  | and => "and"
  | eq => "eq"
  | ne => "ne"
  | lt => "lt"
  | gt => "gt"
  | le => "le"
  | ge => "ge"
  | plus => "plus"
  | minus => "minus"
  | star => "star"
  | slash => "slash"
  | bang => "bang"
  | question => "question"
  | pipe => "pipe"
  | caret => "caret"

end Punct

end SparqlTokens
