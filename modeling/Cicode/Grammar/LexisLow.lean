import Cicode.Grammar.LexState

/-!
# Lexical states 0 to 108

State 0 reads any token and serves recovery; the states after it are reached from a start state
while a token is being read.
-/

namespace Cicode.Grammar

/-- Lexical state 0. -/
def lex0 : LexState where
  atEnd := some 1
  edges := [
    .go (.one '!') 2,
    .go (.one '\x22') 3,
    .go (.one '(') 4,
    .go (.one ')') 5,
    .go (.one '*') 6,
    .go (.one '+') 7,
    .go (.one ',') 8,
    .go (.one '-') 9,
    .go (.one '/') 10,
    .go .digit 11,
    .go (.one ';') 12,
    .go (.one '<') 13,
    .go (.one '=') 14,
    .go (.one '>') 15,
    .go .letter 16,
    .skip .blank 0]

/-- Lexical state 1. -/
def lex1 : LexState where
  accepts := some .endOfInput

/-- Lexical state 2. -/
def lex2 : LexState where
  accepts := some .comment
  edges := [
    .go (.outside [('\x00', '\x00'), ('\t', '\n'), (' ', ' '), ('<', '<')]) 17,
    .go (.within [('\t', '\t'), (' ', ' ')]) 18,
    .go (.one '<') 19]

/-- Lexical state 3. -/
def lex3 : LexState where
  edges := [
    .go (.outside [('\x00', '\x00'), ('\n', '\n'), ('\x22', '\x22'), ('^', '^')]) 20,
    .go (.one '\x22') 21,
    .go (.one '^') 22]

/-- Lexical state 4. -/
def lex4 : LexState where
  accepts := some .lparen

/-- Lexical state 5. -/
def lex5 : LexState where
  accepts := some .rparen

/-- Lexical state 6. -/
def lex6 : LexState where
  accepts := some .star

/-- Lexical state 7. -/
def lex7 : LexState where
  accepts := some .plus

/-- Lexical state 8. -/
def lex8 : LexState where
  accepts := some .comma

/-- Lexical state 9. -/
def lex9 : LexState where
  accepts := some .minus

/-- Lexical state 10. -/
def lex10 : LexState where
  accepts := some .slash
  edges := [
    .go (.one '*') 23,
    .go (.one '/') 24]

/-- Lexical state 11. -/
def lex11 : LexState where
  accepts := some .number
  edges := [
    .go .digit 11]

/-- Lexical state 12. -/
def lex12 : LexState where
  accepts := some .semicolon

/-- Lexical state 13. -/
def lex13 : LexState where
  accepts := some .less
  edges := [
    .go (.one '/') 25,
    .go (.one '=') 26,
    .go (.one '>') 27]

/-- Lexical state 14. -/
def lex14 : LexState where
  accepts := some .equal

/-- Lexical state 15. -/
def lex15 : LexState where
  accepts := some .greater
  edges := [
    .go (.one '=') 28]

/-- Lexical state 16. -/
def lex16 : LexState where
  accepts := some .identifier
  edges := [
    .go .wordChar 16]

/-- Lexical state 17. -/
def lex17 : LexState where
  accepts := some .comment
  edges := [
    .go (.outside [('\x00', '\x00'), ('\n', '\n')]) 17]

/-- Lexical state 18. -/
def lex18 : LexState where
  accepts := some .comment
  edges := [
    .go (.outside [('\x00', '\x00'), ('\t', '\n'), (' ', ' '), ('<', '<')]) 17,
    .go (.within [('\t', '\t'), (' ', ' ')]) 18,
    .go (.one '<') 19]

/-- Lexical state 19. -/
def lex19 : LexState where
  accepts := some .comment
  edges := [
    .go (.outside [('\x00', '\x00'), ('\n', '\n'), ('p', 'p'), ('r', 's')]) 17,
    .go (.one 'p') 29,
    .go (.one 'r') 30,
    .go (.one 's') 31]

/-- Lexical state 20. -/
def lex20 : LexState where
  edges := [
    .go (.outside [('\x00', '\x00'), ('\n', '\n'), ('\x22', '\x22'), ('^', '^')]) 20,
    .go (.one '\x22') 21,
    .go (.one '^') 22]

/-- Lexical state 21. -/
def lex21 : LexState where
  accepts := some .string

/-- Lexical state 22. -/
def lex22 : LexState where
  edges := [
    .go (.outside [('\x00', '\x00'), ('\n', '\n')]) 32]

/-- Lexical state 23. -/
def lex23 : LexState where
  edges := [
    .go (.outside [('\x00', '\x00'), ('*', '*')]) 33,
    .go (.one '*') 34]

/-- Lexical state 24. -/
def lex24 : LexState where
  accepts := some .comment
  edges := [
    .go (.outside [('\x00', '\x00'), ('\t', '\n'), (' ', ' '), ('<', '<')]) 35,
    .go (.within [('\t', '\t'), (' ', ' ')]) 36,
    .go (.one '<') 37]

/-- Lexical state 25. -/
def lex25 : LexState where
  edges := [
    .go (.one 'p') 38,
    .go (.one 'r') 39,
    .go (.one 's') 40]

/-- Lexical state 26. -/
def lex26 : LexState where
  accepts := some .lessEqual

/-- Lexical state 27. -/
def lex27 : LexState where
  accepts := some .notEqual

/-- Lexical state 28. -/
def lex28 : LexState where
  accepts := some .greaterEqual

/-- Lexical state 29. -/
def lex29 : LexState where
  accepts := some .comment
  edges := [
    .go (.outside [('\x00', '\x00'), ('\n', '\n'), ('a', 'a')]) 17,
    .go (.one 'a') 41]

/-- Lexical state 30. -/
def lex30 : LexState where
  accepts := some .comment
  edges := [
    .go (.outside [('\x00', '\x00'), ('\n', '\n'), ('e', 'e')]) 17,
    .go (.one 'e') 42]

/-- Lexical state 31. -/
def lex31 : LexState where
  accepts := some .comment
  edges := [
    .go (.outside [('\x00', '\x00'), ('\n', '\n'), ('u', 'u')]) 17,
    .go (.one 'u') 43]

/-- Lexical state 32. -/
def lex32 : LexState where
  edges := [
    .go (.outside [('\x00', '\x00'), ('\n', '\n'), ('\x22', '\x22'), ('^', '^')]) 20,
    .go (.one '\x22') 21,
    .go (.one '^') 22]

/-- Lexical state 33. -/
def lex33 : LexState where
  edges := [
    .go (.outside [('\x00', '\x00'), ('*', '*')]) 33,
    .go (.one '*') 34]

/-- Lexical state 34. -/
def lex34 : LexState where
  edges := [
    .go (.outside [('\x00', '\x00'), ('*', '*'), ('/', '/')]) 44,
    .go (.one '*') 34,
    .go (.one '/') 45]

/-- Lexical state 35. -/
def lex35 : LexState where
  accepts := some .comment
  edges := [
    .go (.outside [('\x00', '\x00'), ('\n', '\n')]) 35]

/-- Lexical state 36. -/
def lex36 : LexState where
  accepts := some .comment
  edges := [
    .go (.outside [('\x00', '\x00'), ('\t', '\n'), (' ', ' '), ('<', '<')]) 35,
    .go (.within [('\t', '\t'), (' ', ' ')]) 36,
    .go (.one '<') 37]

/-- Lexical state 37. -/
def lex37 : LexState where
  accepts := some .comment
  edges := [
    .go (.outside [('\x00', '\x00'), ('\n', '\n'), ('p', 'p'), ('r', 's')]) 35,
    .go (.one 'p') 46,
    .go (.one 'r') 47,
    .go (.one 's') 48]

/-- Lexical state 38. -/
def lex38 : LexState where
  edges := [
    .go (.one 'a') 49]

/-- Lexical state 39. -/
def lex39 : LexState where
  edges := [
    .go (.one 'e') 50]

/-- Lexical state 40. -/
def lex40 : LexState where
  edges := [
    .go (.one 'u') 51]

/-- Lexical state 41. -/
def lex41 : LexState where
  accepts := some .comment
  edges := [
    .go (.outside [('\x00', '\x00'), ('\n', '\n'), ('r', 'r')]) 17,
    .go (.one 'r') 52]

/-- Lexical state 42. -/
def lex42 : LexState where
  accepts := some .comment
  edges := [
    .go (.outside [('\x00', '\x00'), ('\n', '\n'), ('t', 't')]) 17,
    .go (.one 't') 53]

/-- Lexical state 43. -/
def lex43 : LexState where
  accepts := some .comment
  edges := [
    .go (.outside [('\x00', '\x00'), ('\n', '\n'), ('m', 'm')]) 17,
    .go (.one 'm') 54]

/-- Lexical state 44. -/
def lex44 : LexState where
  edges := [
    .go (.outside [('\x00', '\x00'), ('*', '*')]) 55,
    .go (.one '*') 56]

/-- Lexical state 45. -/
def lex45 : LexState where
  accepts := some .comment

/-- Lexical state 46. -/
def lex46 : LexState where
  accepts := some .comment
  edges := [
    .go (.outside [('\x00', '\x00'), ('\n', '\n'), ('a', 'a')]) 35,
    .go (.one 'a') 57]

/-- Lexical state 47. -/
def lex47 : LexState where
  accepts := some .comment
  edges := [
    .go (.outside [('\x00', '\x00'), ('\n', '\n'), ('e', 'e')]) 35,
    .go (.one 'e') 58]

/-- Lexical state 48. -/
def lex48 : LexState where
  accepts := some .comment
  edges := [
    .go (.outside [('\x00', '\x00'), ('\n', '\n'), ('u', 'u')]) 35,
    .go (.one 'u') 59]

/-- Lexical state 49. -/
def lex49 : LexState where
  edges := [
    .go (.one 'r') 60]

/-- Lexical state 50. -/
def lex50 : LexState where
  edges := [
    .go (.one 't') 61]

/-- Lexical state 51. -/
def lex51 : LexState where
  edges := [
    .go (.one 'm') 62]

/-- Lexical state 52. -/
def lex52 : LexState where
  accepts := some .comment
  edges := [
    .go (.outside [('\x00', '\x00'), ('\n', '\n'), ('a', 'a')]) 17,
    .go (.one 'a') 63]

/-- Lexical state 53. -/
def lex53 : LexState where
  accepts := some .comment
  edges := [
    .go (.outside [('\x00', '\x00'), ('\n', '\n'), ('u', 'u')]) 17,
    .go (.one 'u') 64]

/-- Lexical state 54. -/
def lex54 : LexState where
  accepts := some .comment
  edges := [
    .go (.outside [('\x00', '\x00'), ('\n', '\n'), ('m', 'm')]) 17,
    .go (.one 'm') 65]

/-- Lexical state 55. -/
def lex55 : LexState where
  edges := [
    .go (.outside [('\x00', '\x00'), ('*', '*')]) 55,
    .go (.one '*') 56]

/-- Lexical state 56. -/
def lex56 : LexState where
  edges := [
    .go (.outside [('\x00', '\x00'), ('*', '*'), ('/', '/')]) 44,
    .go (.one '*') 56,
    .go (.one '/') 45]

/-- Lexical state 57. -/
def lex57 : LexState where
  accepts := some .comment
  edges := [
    .go (.outside [('\x00', '\x00'), ('\n', '\n'), ('r', 'r')]) 35,
    .go (.one 'r') 66]

/-- Lexical state 58. -/
def lex58 : LexState where
  accepts := some .comment
  edges := [
    .go (.outside [('\x00', '\x00'), ('\n', '\n'), ('t', 't')]) 35,
    .go (.one 't') 67]

/-- Lexical state 59. -/
def lex59 : LexState where
  accepts := some .comment
  edges := [
    .go (.outside [('\x00', '\x00'), ('\n', '\n'), ('m', 'm')]) 35,
    .go (.one 'm') 68]

/-- Lexical state 60. -/
def lex60 : LexState where
  edges := [
    .go (.one 'a') 69]

/-- Lexical state 61. -/
def lex61 : LexState where
  edges := [
    .go (.one 'u') 70]

/-- Lexical state 62. -/
def lex62 : LexState where
  edges := [
    .go (.one 'm') 71]

/-- Lexical state 63. -/
def lex63 : LexState where
  accepts := some .comment
  edges := [
    .go (.outside [('\x00', '\x00'), ('\n', '\n'), ('m', 'm')]) 17,
    .go (.one 'm') 72]

/-- Lexical state 64. -/
def lex64 : LexState where
  accepts := some .comment
  edges := [
    .go (.outside [('\x00', '\x00'), ('\n', '\n'), ('r', 'r')]) 17,
    .go (.one 'r') 73]

/-- Lexical state 65. -/
def lex65 : LexState where
  accepts := some .comment
  edges := [
    .go (.outside [('\x00', '\x00'), ('\n', '\n'), ('a', 'a')]) 17,
    .go (.one 'a') 74]

/-- Lexical state 66. -/
def lex66 : LexState where
  accepts := some .comment
  edges := [
    .go (.outside [('\x00', '\x00'), ('\n', '\n'), ('a', 'a')]) 35,
    .go (.one 'a') 75]

/-- Lexical state 67. -/
def lex67 : LexState where
  accepts := some .comment
  edges := [
    .go (.outside [('\x00', '\x00'), ('\n', '\n'), ('u', 'u')]) 35,
    .go (.one 'u') 76]

/-- Lexical state 68. -/
def lex68 : LexState where
  accepts := some .comment
  edges := [
    .go (.outside [('\x00', '\x00'), ('\n', '\n'), ('m', 'm')]) 35,
    .go (.one 'm') 77]

/-- Lexical state 69. -/
def lex69 : LexState where
  edges := [
    .go (.one 'm') 78]

/-- Lexical state 70. -/
def lex70 : LexState where
  edges := [
    .go (.one 'r') 79]

/-- Lexical state 71. -/
def lex71 : LexState where
  edges := [
    .go (.one 'a') 80]

/-- Lexical state 72. -/
def lex72 : LexState where
  accepts := some .comment
  edges := [
    .go (.outside [('\x00', '\x00'), ('\t', '\n'), (' ', ' '), ('>', '>')]) 17,
    .go (.within [('\t', '\t'), (' ', ' ')]) 81,
    .go (.one '>') 82]

/-- Lexical state 73. -/
def lex73 : LexState where
  accepts := some .comment
  edges := [
    .go (.outside [('\x00', '\x00'), ('\n', '\n'), ('n', 'n')]) 17,
    .go (.one 'n') 83]

/-- Lexical state 74. -/
def lex74 : LexState where
  accepts := some .comment
  edges := [
    .go (.outside [('\x00', '\x00'), ('\n', '\n'), ('r', 'r')]) 17,
    .go (.one 'r') 84]

/-- Lexical state 75. -/
def lex75 : LexState where
  accepts := some .comment
  edges := [
    .go (.outside [('\x00', '\x00'), ('\n', '\n'), ('m', 'm')]) 35,
    .go (.one 'm') 85]

/-- Lexical state 76. -/
def lex76 : LexState where
  accepts := some .comment
  edges := [
    .go (.outside [('\x00', '\x00'), ('\n', '\n'), ('r', 'r')]) 35,
    .go (.one 'r') 86]

/-- Lexical state 77. -/
def lex77 : LexState where
  accepts := some .comment
  edges := [
    .go (.outside [('\x00', '\x00'), ('\n', '\n'), ('a', 'a')]) 35,
    .go (.one 'a') 87]

/-- Lexical state 78. -/
def lex78 : LexState where
  edges := [
    .go (.one '>') 88]

/-- Lexical state 79. -/
def lex79 : LexState where
  edges := [
    .go (.one 'n') 89]

/-- Lexical state 80. -/
def lex80 : LexState where
  edges := [
    .go (.one 'r') 90]

/-- Lexical state 81. -/
def lex81 : LexState where
  accepts := some .comment
  edges := [
    .go (.outside [('\x00', '\x00'), ('\n', '\n'), ('>', '>')]) 91,
    .go (.one '>') 82]

/-- Lexical state 82. -/
def lex82 : LexState where
  accepts := some .paramTag

/-- Lexical state 83. -/
def lex83 : LexState where
  accepts := some .comment
  edges := [
    .go (.outside [('\x00', '\x00'), ('\n', '\n'), ('s', 's')]) 17,
    .go (.one 's') 92]

/-- Lexical state 84. -/
def lex84 : LexState where
  accepts := some .comment
  edges := [
    .go (.outside [('\x00', '\x00'), ('\n', '\n'), ('y', 'y')]) 17,
    .go (.one 'y') 93]

/-- Lexical state 85. -/
def lex85 : LexState where
  accepts := some .comment
  edges := [
    .go (.outside [('\x00', '\x00'), ('\t', '\n'), (' ', ' '), ('>', '>')]) 35,
    .go (.within [('\t', '\t'), (' ', ' ')]) 94,
    .go (.one '>') 95]

/-- Lexical state 86. -/
def lex86 : LexState where
  accepts := some .comment
  edges := [
    .go (.outside [('\x00', '\x00'), ('\n', '\n'), ('n', 'n')]) 35,
    .go (.one 'n') 96]

/-- Lexical state 87. -/
def lex87 : LexState where
  accepts := some .comment
  edges := [
    .go (.outside [('\x00', '\x00'), ('\n', '\n'), ('r', 'r')]) 35,
    .go (.one 'r') 97]

/-- Lexical state 88. -/
def lex88 : LexState where
  accepts := some .paramEnd

/-- Lexical state 89. -/
def lex89 : LexState where
  edges := [
    .go (.one 's') 98]

/-- Lexical state 90. -/
def lex90 : LexState where
  edges := [
    .go (.one 'y') 99]

/-- Lexical state 91. -/
def lex91 : LexState where
  accepts := some .comment
  edges := [
    .go (.outside [('\x00', '\x00'), ('\n', '\n'), ('>', '>')]) 91,
    .go (.one '>') 82]

/-- Lexical state 92. -/
def lex92 : LexState where
  accepts := some .comment
  edges := [
    .go (.outside [('\x00', '\x00'), ('\n', '\n'), ('>', '>')]) 17,
    .go (.one '>') 100]

/-- Lexical state 93. -/
def lex93 : LexState where
  accepts := some .comment
  edges := [
    .go (.outside [('\x00', '\x00'), ('\n', '\n'), ('>', '>')]) 17,
    .go (.one '>') 101]

/-- Lexical state 94. -/
def lex94 : LexState where
  accepts := some .comment
  edges := [
    .go (.outside [('\x00', '\x00'), ('\n', '\n'), ('>', '>')]) 102,
    .go (.one '>') 95]

/-- Lexical state 95. -/
def lex95 : LexState where
  accepts := some .paramTag

/-- Lexical state 96. -/
def lex96 : LexState where
  accepts := some .comment
  edges := [
    .go (.outside [('\x00', '\x00'), ('\n', '\n'), ('s', 's')]) 35,
    .go (.one 's') 103]

/-- Lexical state 97. -/
def lex97 : LexState where
  accepts := some .comment
  edges := [
    .go (.outside [('\x00', '\x00'), ('\n', '\n'), ('y', 'y')]) 35,
    .go (.one 'y') 104]

/-- Lexical state 98. -/
def lex98 : LexState where
  edges := [
    .go (.one '>') 105]

/-- Lexical state 99. -/
def lex99 : LexState where
  edges := [
    .go (.one '>') 106]

/-- Lexical state 100. -/
def lex100 : LexState where
  accepts := some .returnsStart

/-- Lexical state 101. -/
def lex101 : LexState where
  accepts := some .summaryStart

/-- Lexical state 102. -/
def lex102 : LexState where
  accepts := some .comment
  edges := [
    .go (.outside [('\x00', '\x00'), ('\n', '\n'), ('>', '>')]) 102,
    .go (.one '>') 95]

/-- Lexical state 103. -/
def lex103 : LexState where
  accepts := some .comment
  edges := [
    .go (.outside [('\x00', '\x00'), ('\n', '\n'), ('>', '>')]) 35,
    .go (.one '>') 107]

/-- Lexical state 104. -/
def lex104 : LexState where
  accepts := some .comment
  edges := [
    .go (.outside [('\x00', '\x00'), ('\n', '\n'), ('>', '>')]) 35,
    .go (.one '>') 108]

/-- Lexical state 105. -/
def lex105 : LexState where
  accepts := some .returnsEnd

/-- Lexical state 106. -/
def lex106 : LexState where
  accepts := some .summaryEnd

/-- Lexical state 107. -/
def lex107 : LexState where
  accepts := some .returnsStart

/-- Lexical state 108. -/
def lex108 : LexState where
  accepts := some .summaryStart

/-- These states, in the order of their numbers. -/
def lexStatesLow : List LexState :=
  [
    lex0, lex1, lex2, lex3, lex4, lex5, lex6, lex7, lex8, lex9, lex10, lex11, lex12, lex13,
    lex14, lex15, lex16, lex17, lex18, lex19, lex20, lex21, lex22, lex23, lex24, lex25, lex26,
    lex27, lex28, lex29, lex30, lex31, lex32, lex33, lex34, lex35, lex36, lex37, lex38, lex39,
    lex40, lex41, lex42, lex43, lex44, lex45, lex46, lex47, lex48, lex49, lex50, lex51, lex52,
    lex53, lex54, lex55, lex56, lex57, lex58, lex59, lex60, lex61, lex62, lex63, lex64, lex65,
    lex66, lex67, lex68, lex69, lex70, lex71, lex72, lex73, lex74, lex75, lex76, lex77, lex78,
    lex79, lex80, lex81, lex82, lex83, lex84, lex85, lex86, lex87, lex88, lex89, lex90, lex91,
    lex92, lex93, lex94, lex95, lex96, lex97, lex98, lex99, lex100, lex101, lex102, lex103,
    lex104, lex105, lex106, lex107, lex108 ]

end Cicode.Grammar
