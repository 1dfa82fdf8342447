import Cicode.Grammar.LexState

/-!
# Lexical states 109 to 155

The states in which a token begins, with the states that only they reach.
-/

namespace Cicode.Grammar

/-- Lexical state 109. -/
def lex109 : LexState where
  atEnd := some 110
  edges := [
    .go (.one '!') 2,
    .go (.one '/') 111,
    .go .wordChar 16,
    .skip .blank 109]

/-- Lexical state 110. -/
def lex110 : LexState where
  accepts := some .endOfInput

/-- Lexical state 111. -/
def lex111 : LexState where
  edges := [
    .go (.one '*') 23,
    .go (.one '/') 24]

/-- Lexical state 112. -/
def lex112 : LexState where
  atEnd := some 113
  edges := [
    .go (.one '!') 114,
    .go (.one '/') 115,
    .skip .blank 112]

/-- Lexical state 113. -/
def lex113 : LexState where
  accepts := some .endOfInput

/-- Lexical state 114. -/
def lex114 : LexState where
  accepts := some .comment
  edges := [
    .go (.outside [('\x00', '\x00'), ('\n', '\n')]) 17]

/-- Lexical state 115. -/
def lex115 : LexState where
  edges := [
    .go (.one '*') 23,
    .go (.one '/') 116]

/-- Lexical state 116. -/
def lex116 : LexState where
  accepts := some .comment
  edges := [
    .go (.outside [('\x00', '\x00'), ('\n', '\n')]) 35]

/-- Lexical state 117. -/
def lex117 : LexState where
  edges := [
    .go (.one '!') 114,
    .go (.one '/') 115,
    .go (.one '<') 118,
    .skip .blank 117]

/-- Lexical state 118. -/
def lex118 : LexState where
  edges := [
    .go (.one '/') 119]

/-- Lexical state 119. -/
def lex119 : LexState where
  edges := [
    .go (.one 's') 40]

/-- Lexical state 120. -/
def lex120 : LexState where
  edges := [
    .go (.one '!') 114,
    .go (.one '/') 115,
    .go (.one '<') 121,
    .skip .blank 120]

/-- Lexical state 121. -/
def lex121 : LexState where
  edges := [
    .go (.one '/') 122]

/-- Lexical state 122. -/
def lex122 : LexState where
  edges := [
    .go (.one 'p') 38]

/-- Lexical state 123. -/
def lex123 : LexState where
  edges := [
    .go (.one '!') 114,
    .go (.one '/') 115,
    .go (.one '<') 124,
    .skip .blank 123]

/-- Lexical state 124. -/
def lex124 : LexState where
  edges := [
    .go (.one '/') 125]

/-- Lexical state 125. -/
def lex125 : LexState where
  edges := [
    .go (.one 'r') 39]

/-- Lexical state 126. -/
def lex126 : LexState where
  edges := [
    .go (.one '!') 114,
    .go (.one '/') 115,
    .go .wordChar 16,
    .skip .blank 126]

/-- Lexical state 127. -/
def lex127 : LexState where
  edges := [
    .go (.one '!') 114,
    .go (.one '/') 115,
    .go (.one ';') 12,
    .skip .blank 127]

/-- Lexical state 128. -/
def lex128 : LexState where
  edges := [
    .go (.one '!') 114,
    .go (.one '(') 4,
    .go (.one '/') 115,
    .go (.one '=') 14,
    .skip .blank 128]

/-- Lexical state 129. -/
def lex129 : LexState where
  edges := [
    .go (.one '!') 114,
    .go (.one '\x22') 3,
    .go (.one '(') 4,
    .go (.one '-') 9,
    .go (.one '/') 115,
    .go .digit 11,
    .go .letter 16,
    .skip .blank 129]

/-- Lexical state 130. -/
def lex130 : LexState where
  edges := [
    .go (.one '!') 114,
    .go (.one '\x22') 3,
    .go (.one '(') 4,
    .go (.one '-') 9,
    .go (.one '/') 115,
    .go .digit 11,
    .go (.one ';') 12,
    .go .letter 16,
    .skip .blank 130]

/-- Lexical state 131. -/
def lex131 : LexState where
  edges := [
    .go (.one '!') 114,
    .go (.one '(') 4,
    .go (.one '/') 115,
    .skip .blank 131]

/-- Lexical state 132. -/
def lex132 : LexState where
  edges := [
    .go (.one '!') 114,
    .go (.one ',') 8,
    .go (.one '/') 115,
    .go (.one ';') 12,
    .go (.one '=') 14,
    .skip .blank 132]

/-- Lexical state 133. -/
def lex133 : LexState where
  edges := [
    .go (.one '!') 114,
    .go (.one '\x22') 3,
    .go (.one '(') 4,
    .go (.one ')') 5,
    .go (.one '-') 9,
    .go (.one '/') 115,
    .go .digit 11,
    .go .letter 16,
    .skip .blank 133]

/-- Lexical state 134. -/
def lex134 : LexState where
  edges := [
    .go (.one '!') 114,
    .go (.one '/') 115,
    .go .wordChar 16,
    .go (.one '<') 135,
    .go (.one '=') 14,
    .go (.one '>') 15,
    .skip .blank 134]

/-- Lexical state 135. -/
def lex135 : LexState where
  accepts := some .less
  edges := [
    .go (.one '=') 26,
    .go (.one '>') 27]

/-- Lexical state 136. -/
def lex136 : LexState where
  edges := [
    .go (.one '!') 114,
    .go (.one ')') 5,
    .go (.one '*') 6,
    .go (.one '+') 7,
    .go (.one ',') 8,
    .go (.one '-') 9,
    .go (.one '/') 137,
    .go .wordChar 16,
    .go (.one ';') 12,
    .go (.one '<') 135,
    .go (.one '=') 14,
    .go (.one '>') 15,
    .skip .blank 136]

/-- Lexical state 137. -/
def lex137 : LexState where
  accepts := some .slash
  edges := [
    .go (.one '*') 23,
    .go (.one '/') 116]

/-- Lexical state 138. -/
def lex138 : LexState where
  edges := [
    .go (.one '!') 114,
    .go (.one ')') 5,
    .go (.one '*') 6,
    .go (.one '+') 7,
    .go (.one '-') 9,
    .go (.one '/') 137,
    .go .wordChar 16,
    .go (.one '<') 135,
    .go (.one '=') 14,
    .go (.one '>') 15,
    .skip .blank 138]

/-- Lexical state 139. -/
def lex139 : LexState where
  edges := [
    .go (.one '!') 114,
    .go (.one '(') 4,
    .go (.one ')') 5,
    .go (.one '*') 6,
    .go (.one '+') 7,
    .go (.one ',') 8,
    .go (.one '-') 9,
    .go (.one '/') 137,
    .go .wordChar 16,
    .go (.one ';') 12,
    .go (.one '<') 135,
    .go (.one '=') 14,
    .go (.one '>') 15,
    .skip .blank 139]

/-- Lexical state 140. -/
def lex140 : LexState where
  edges := [
    .go (.one '!') 114,
    .go (.one ')') 5,
    .go (.one '/') 115,
    .go .wordChar 16,
    .go (.one '<') 135,
    .go (.one '=') 14,
    .go (.one '>') 15,
    .skip .blank 140]

/-- Lexical state 141. -/
def lex141 : LexState where
  edges := [
    .go (.one '!') 114,
    .go (.one '(') 4,
    .go (.one '/') 115,
    .go .wordChar 16,
    .skip .blank 141]

/-- Lexical state 142. -/
def lex142 : LexState where
  edges := [
    .go (.one '!') 114,
    .go (.one '*') 6,
    .go (.one '+') 7,
    .go (.one '-') 9,
    .go (.one '/') 137,
    .go .wordChar 16,
    .go (.one ';') 12,
    .skip .blank 142]

/-- Lexical state 143. -/
def lex143 : LexState where
  edges := [
    .go (.one '!') 114,
    .go (.one ')') 5,
    .go (.one '/') 115,
    .go .wordChar 16,
    .skip .blank 143]

/-- Lexical state 144. -/
def lex144 : LexState where
  edges := [
    .go (.one '!') 114,
    .go (.one ',') 8,
    .go (.one '/') 115,
    .go (.one ';') 12,
    .skip .blank 144]

/-- Lexical state 145. -/
def lex145 : LexState where
  edges := [
    .go (.one '!') 114,
    .go (.one '\x22') 3,
    .go (.one '/') 115,
    .go .digit 11,
    .go .letter 16,
    .skip .blank 145]

/-- Lexical state 146. -/
def lex146 : LexState where
  edges := [
    .go (.one '!') 114,
    .go (.one ')') 5,
    .go (.one '*') 6,
    .go (.one '+') 7,
    .go (.one ',') 8,
    .go (.one '-') 9,
    .go (.one '/') 137,
    .go .wordChar 16,
    .skip .blank 146]

/-- Lexical state 147. -/
def lex147 : LexState where
  edges := [
    .go (.one '!') 114,
    .go (.one '(') 4,
    .go (.one ')') 5,
    .go (.one '/') 115,
    .go .wordChar 16,
    .go (.one '<') 135,
    .go (.one '=') 14,
    .go (.one '>') 15,
    .skip .blank 147]

/-- Lexical state 148. -/
def lex148 : LexState where
  edges := [
    .go (.one '!') 114,
    .go (.one ')') 5,
    .go (.one '*') 6,
    .go (.one '+') 7,
    .go (.one '-') 9,
    .go (.one '/') 137,
    .go .wordChar 16,
    .skip .blank 148]

/-- Lexical state 149. -/
def lex149 : LexState where
  edges := [
    .go (.one '!') 114,
    .go (.one ')') 5,
    .go (.one '/') 115,
    .skip .blank 149]

/-- Lexical state 150. -/
def lex150 : LexState where
  edges := [
    .go (.one '\n') 151,
    .go (.one '!') 114,
    .go (.one '/') 115,
    .skip .blankInLine 150]

/-- Lexical state 151. -/
def lex151 : LexState where
  accepts := some .lineFeed

/-- Lexical state 152. -/
def lex152 : LexState where
  edges := [
    .go (.one '!') 114,
    .go (.one ')') 5,
    .go (.one ',') 8,
    .go (.one '/') 115,
    .skip .blank 152]

/-- Lexical state 153. -/
def lex153 : LexState where
  edges := [
    .go (.one '!') 114,
    .go (.one ')') 5,
    .go (.one ',') 8,
    .go (.one '/') 115,
    .go (.one '=') 14,
    .skip .blank 153]

/-- Lexical state 154. -/
def lex154 : LexState where
  edges := [
    .go (.one '!') 114,
    .go (.one '\x22') 3,
    .go (.one '/') 115,
    .go .digit 155,
    .skip .blank 154]

/-- Lexical state 155. -/
def lex155 : LexState where
  accepts := some .number
  edges := [
    .go .digit 155]

/-- These states, in the order of their numbers. -/
def lexStatesHigh : List LexState :=
  [
    lex109, lex110, lex111, lex112, lex113, lex114, lex115, lex116, lex117, lex118, lex119,
    lex120, lex121, lex122, lex123, lex124, lex125, lex126, lex127, lex128, lex129, lex130,
    lex131, lex132, lex133, lex134, lex135, lex136, lex137, lex138, lex139, lex140, lex141,
    lex142, lex143, lex144, lex145, lex146, lex147, lex148, lex149, lex150, lex151, lex152,
    lex153, lex154, lex155 ]

end Cicode.Grammar
