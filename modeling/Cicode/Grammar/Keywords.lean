import Cicode.Grammar.LexState

/-!
# The keyword automaton

Run on a word from its first character; it accepts at the end of a keyword, whatever the case of
its letters.
-/

namespace Cicode.Grammar

/-- Keyword state 0. -/
def kw0 : LexState where
  edges := [
    .go (.letterOf 'A') 1,
    .go (.letterOf 'B') 2,
    .go (.letterOf 'E') 3,
    .go (.letterOf 'F') 4,
    .go (.letterOf 'I') 5,
    .go (.letterOf 'L') 6,
    .go (.letterOf 'M') 7,
    .go (.letterOf 'N') 8,
    .go (.letterOf 'O') 9,
    .go (.letterOf 'P') 10,
    .go (.letterOf 'Q') 11,
    .go (.letterOf 'R') 12,
    .go (.letterOf 'S') 13,
    .go (.letterOf 'T') 14,
    .go (.letterOf 'V') 15,
    .skip .blank 0]

/-- Keyword state 1. -/
def kw1 : LexState where
  edges := [
    .go (.letterOf 'N') 16]

/-- Keyword state 2. -/
def kw2 : LexState where
  edges := [
    .go (.letterOf 'I') 17,
    .go (.letterOf 'O') 18]

/-- Keyword state 3. -/
def kw3 : LexState where
  edges := [
    .go (.letterOf 'L') 19,
    .go (.letterOf 'N') 20]

/-- Keyword state 4. -/
def kw4 : LexState where
  edges := [
    .go (.letterOf 'U') 21]

/-- Keyword state 5. -/
def kw5 : LexState where
  edges := [
    .go (.letterOf 'F') 22,
    .go (.letterOf 'N') 23]

/-- Keyword state 6. -/
def kw6 : LexState where
  edges := [
    .go (.letterOf 'O') 24]

/-- Keyword state 7. -/
def kw7 : LexState where
  edges := [
    .go (.letterOf 'O') 25]

/-- Keyword state 8. -/
def kw8 : LexState where
  edges := [
    .go (.letterOf 'O') 26]

/-- Keyword state 9. -/
def kw9 : LexState where
  edges := [
    .go (.letterOf 'B') 27,
    .go (.letterOf 'R') 28]

/-- Keyword state 10. -/
def kw10 : LexState where
  edges := [
    .go (.letterOf 'R') 29,
    .go (.letterOf 'U') 30]

/-- Keyword state 11. -/
def kw11 : LexState where
  edges := [
    .go (.letterOf 'U') 31]

/-- Keyword state 12. -/
def kw12 : LexState where
  edges := [
    .go (.letterOf 'E') 32]

/-- Keyword state 13. -/
def kw13 : LexState where
  edges := [
    .go (.letterOf 'T') 33]

/-- Keyword state 14. -/
def kw14 : LexState where
  edges := [
    .go (.letterOf 'H') 34,
    .go (.letterOf 'I') 35]

/-- Keyword state 15. -/
def kw15 : LexState where
  edges := [
    .go (.letterOf 'O') 36]

/-- Keyword state 16. -/
def kw16 : LexState where
  edges := [
    .go (.letterOf 'D') 37]

/-- Keyword state 17. -/
def kw17 : LexState where
  edges := [
    .go (.letterOf 'T') 38]

/-- Keyword state 18. -/
def kw18 : LexState where
  edges := [
    .go (.letterOf 'O') 39]

/-- Keyword state 19. -/
def kw19 : LexState where
  edges := [
    .go (.letterOf 'S') 40]

/-- Keyword state 20. -/
def kw20 : LexState where
  edges := [
    .go (.letterOf 'D') 41]

/-- Keyword state 21. -/
def kw21 : LexState where
  edges := [
    .go (.letterOf 'N') 42]

/-- Keyword state 22. -/
def kw22 : LexState where
  accepts := some .kwIf

/-- Keyword state 23. -/
def kw23 : LexState where
  edges := [
    .go (.letterOf 'T') 43]

/-- Keyword state 24. -/
def kw24 : LexState where
  edges := [
    .go (.letterOf 'N') 44]

/-- Keyword state 25. -/
def kw25 : LexState where
  edges := [
    .go (.letterOf 'D') 45]

/-- Keyword state 26. -/
def kw26 : LexState where
  edges := [
    .go (.letterOf 'T') 46]

/-- Keyword state 27. -/
def kw27 : LexState where
  edges := [
    .go (.letterOf 'J') 47]

/-- Keyword state 28. -/
def kw28 : LexState where
  accepts := some .kwOr

/-- Keyword state 29. -/
def kw29 : LexState where
  edges := [
    .go (.letterOf 'I') 48]

/-- Keyword state 30. -/
def kw30 : LexState where
  edges := [
    .go (.letterOf 'B') 49]

/-- Keyword state 31. -/
def kw31 : LexState where
  edges := [
    .go (.letterOf 'A') 50]

/-- Keyword state 32. -/
def kw32 : LexState where
  edges := [
    .go (.letterOf 'A') 51,
    .go (.letterOf 'T') 52]

/-- Keyword state 33. -/
def kw33 : LexState where
  edges := [
    .go (.letterOf 'R') 53]

/-- Keyword state 34. -/
def kw34 : LexState where
  edges := [
    .go (.letterOf 'E') 54]

/-- Keyword state 35. -/
def kw35 : LexState where
  edges := [
    .go (.letterOf 'M') 55]

/-- Keyword state 36. -/
def kw36 : LexState where
  edges := [
    .go (.letterOf 'I') 56]

/-- Keyword state 37. -/
def kw37 : LexState where
  accepts := some .kwAnd

/-- Keyword state 38. -/
def kw38 : LexState where
  edges := [
    .go (.letterOf 'A') 57,
    .go (.letterOf 'O') 58,
    .go (.letterOf 'X') 59]

/-- Keyword state 39. -/
def kw39 : LexState where
  edges := [
    .go (.letterOf 'L') 60]

/-- Keyword state 40. -/
def kw40 : LexState where
  edges := [
    .go (.letterOf 'E') 61]

/-- Keyword state 41. -/
def kw41 : LexState where
  accepts := some .kwEnd

/-- Keyword state 42. -/
def kw42 : LexState where
  edges := [
    .go (.letterOf 'C') 62]

/-- Keyword state 43. -/
def kw43 : LexState where
  accepts := some .kwInt

/-- Keyword state 44. -/
def kw44 : LexState where
  edges := [
    .go (.letterOf 'G') 63]

/-- Keyword state 45. -/
def kw45 : LexState where
  accepts := some .kwMod

/-- Keyword state 46. -/
def kw46 : LexState where
  accepts := some .kwNot

/-- Keyword state 47. -/
def kw47 : LexState where
  edges := [
    .go (.letterOf 'E') 64]

/-- Keyword state 48. -/
def kw48 : LexState where
  edges := [
    .go (.letterOf 'V') 65]

/-- Keyword state 49. -/
def kw49 : LexState where
  edges := [
    .go (.letterOf 'L') 66]

/-- Keyword state 50. -/
def kw50 : LexState where
  edges := [
    .go (.letterOf 'L') 67]

/-- Keyword state 51. -/
def kw51 : LexState where
  edges := [
    .go (.letterOf 'L') 68]

/-- Keyword state 52. -/
def kw52 : LexState where
  edges := [
    .go (.letterOf 'U') 69]

/-- Keyword state 53. -/
def kw53 : LexState where
  edges := [
    .go (.letterOf 'I') 70]

/-- Keyword state 54. -/
def kw54 : LexState where
  edges := [
    .go (.letterOf 'N') 71]

/-- Keyword state 55. -/
def kw55 : LexState where
  edges := [
    .go (.letterOf 'E') 72]

/-- Keyword state 56. -/
def kw56 : LexState where
  edges := [
    .go (.letterOf 'D') 73]

/-- Keyword state 57. -/
def kw57 : LexState where
  edges := [
    .go (.letterOf 'N') 74]

/-- Keyword state 58. -/
def kw58 : LexState where
  edges := [
    .go (.letterOf 'R') 75]

/-- Keyword state 59. -/
def kw59 : LexState where
  edges := [
    .go (.letterOf 'O') 76]

/-- Keyword state 60. -/
def kw60 : LexState where
  accepts := some .kwBool

/-- Keyword state 61. -/
def kw61 : LexState where
  accepts := some .kwElse

/-- Keyword state 62. -/
def kw62 : LexState where
  edges := [
    .go (.letterOf 'T') 77]

/-- Keyword state 63. -/
def kw63 : LexState where
  accepts := some .kwLong

/-- Keyword state 64. -/
def kw64 : LexState where
  edges := [
    .go (.letterOf 'C') 78]

/-- Keyword state 65. -/
def kw65 : LexState where
  edges := [
    .go (.letterOf 'A') 79]

/-- Keyword state 66. -/
def kw66 : LexState where
  edges := [
    .go (.letterOf 'I') 80]

/-- Keyword state 67. -/
def kw67 : LexState where
  edges := [
    .go (.letterOf 'I') 81]

/-- Keyword state 68. -/
def kw68 : LexState where
  accepts := some .kwReal

/-- Keyword state 69. -/
def kw69 : LexState where
  edges := [
    .go (.letterOf 'R') 82]

/-- Keyword state 70. -/
def kw70 : LexState where
  edges := [
    .go (.letterOf 'N') 83]

/-- Keyword state 71. -/
def kw71 : LexState where
  accepts := some .kwThen

/-- Keyword state 72. -/
def kw72 : LexState where
  edges := [
    .go (.letterOf 'S') 84]

/-- Keyword state 73. -/
def kw73 : LexState where
  accepts := some .kwVoid

/-- Keyword state 74. -/
def kw74 : LexState where
  edges := [
    .go (.letterOf 'D') 85]

/-- Keyword state 75. -/
def kw75 : LexState where
  accepts := some .kwBitor

/-- Keyword state 76. -/
def kw76 : LexState where
  edges := [
    .go (.letterOf 'R') 86]

/-- Keyword state 77. -/
def kw77 : LexState where
  edges := [
    .go (.letterOf 'I') 87]

/-- Keyword state 78. -/
def kw78 : LexState where
  edges := [
    .go (.letterOf 'T') 88]

/-- Keyword state 79. -/
def kw79 : LexState where
  edges := [
    .go (.letterOf 'T') 89]

/-- Keyword state 80. -/
def kw80 : LexState where
  edges := [
    .go (.letterOf 'C') 90]

/-- Keyword state 81. -/
def kw81 : LexState where
  edges := [
    .go (.letterOf 'T') 91]

/-- Keyword state 82. -/
def kw82 : LexState where
  edges := [
    .go (.letterOf 'N') 92]

/-- Keyword state 83. -/
def kw83 : LexState where
  edges := [
    .go (.letterOf 'G') 93]

/-- Keyword state 84. -/
def kw84 : LexState where
  edges := [
    .go (.letterOf 'T') 94]

/-- Keyword state 85. -/
def kw85 : LexState where
  accepts := some .kwBitand

/-- Keyword state 86. -/
def kw86 : LexState where
  accepts := some .kwBitxor

/-- Keyword state 87. -/
def kw87 : LexState where
  edges := [
    .go (.letterOf 'O') 95]

/-- Keyword state 88. -/
def kw88 : LexState where
  accepts := some .kwObject

/-- Keyword state 89. -/
def kw89 : LexState where
  edges := [
    .go (.letterOf 'E') 96]

/-- Keyword state 90. -/
def kw90 : LexState where
  accepts := some .kwPublic

/-- Keyword state 91. -/
def kw91 : LexState where
  edges := [
    .go (.letterOf 'Y') 97]

/-- Keyword state 92. -/
def kw92 : LexState where
  accepts := some .kwReturn

/-- Keyword state 93. -/
def kw93 : LexState where
  accepts := some .kwString

/-- Keyword state 94. -/
def kw94 : LexState where
  edges := [
    .go (.letterOf 'A') 98]

/-- Keyword state 95. -/
def kw95 : LexState where
  edges := [
    .go (.letterOf 'N') 99]

/-- Keyword state 96. -/
def kw96 : LexState where
  accepts := some .kwPrivate

/-- Keyword state 97. -/
def kw97 : LexState where
  accepts := some .kwQuality

/-- Keyword state 98. -/
def kw98 : LexState where
  edges := [
    .go (.letterOf 'M') 100]

/-- Keyword state 99. -/
def kw99 : LexState where
  accepts := some .kwFunction

/-- Keyword state 100. -/
def kw100 : LexState where
  edges := [
    .go (.letterOf 'P') 101]

/-- Keyword state 101. -/
def kw101 : LexState where
  accepts := some .kwTimestamp

/-- These states, in the order of their numbers. -/
def keywordStates : List LexState :=
  [
    kw0, kw1, kw2, kw3, kw4, kw5, kw6, kw7, kw8, kw9, kw10, kw11, kw12, kw13, kw14, kw15, kw16,
    kw17, kw18, kw19, kw20, kw21, kw22, kw23, kw24, kw25, kw26, kw27, kw28, kw29, kw30, kw31,
    kw32, kw33, kw34, kw35, kw36, kw37, kw38, kw39, kw40, kw41, kw42, kw43, kw44, kw45, kw46,
    kw47, kw48, kw49, kw50, kw51, kw52, kw53, kw54, kw55, kw56, kw57, kw58, kw59, kw60, kw61,
    kw62, kw63, kw64, kw65, kw66, kw67, kw68, kw69, kw70, kw71, kw72, kw73, kw74, kw75, kw76,
    kw77, kw78, kw79, kw80, kw81, kw82, kw83, kw84, kw85, kw86, kw87, kw88, kw89, kw90, kw91,
    kw92, kw93, kw94, kw95, kw96, kw97, kw98, kw99, kw100, kw101 ]

end Cicode.Grammar
