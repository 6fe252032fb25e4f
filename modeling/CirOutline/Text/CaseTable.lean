import CirOutline.Text.CodeRange

/-!
The data of letter case: which code points have an upper or a lower case form, and which characters
matter for the form of a sigma at the end of a word.
-/

namespace CirOutline.Text

/-- Letters at a distance `step` from each other. The first one is `skip` behind the last letter of
the run before, and `shift` leads from a letter to its other form. -/
structure CaseRun where
  skip : Nat
  count : Nat
  step : Nat
  shift : Int

/-- The other form of a letter of the runs or, when going `back`, the letter that has it. -/
def CaseRun.move? (back : Bool) : (previous : Nat) → List CaseRun → (code : Nat) → Option Nat
  | _, [], _ => none
  | previous, run :: runs, code =>
    let first := previous + run.skip
    let letter := if back then (Int.ofNat code - run.shift).toNat else code
    if first ≤ letter && (letter - first) % run.step == 0 && (letter - first) / run.step < run.count
    then some (if back then letter else (Int.ofNat code + run.shift).toNat)
    else move? back (first + run.step * (run.count - 1)) runs code

/-- Small letters whose capitals have them as their lower case form. -/
def letterRuns : List CaseRun := [
  ⟨97, 26, 1, -32⟩, ⟨102, 23, 1, -32⟩, ⟨2, 7, 1, -32⟩, ⟨1, 1, 1, 121⟩, ⟨2, 24, 2, -1⟩,
  ⟨4, 3, 2, -1⟩, ⟨3, 8, 2, -1⟩, ⟨3, 23, 2, -1⟩, ⟨3, 3, 2, -1⟩, ⟨2, 1, 1, 195⟩, ⟨3, 2, 2, -1⟩,
  ⟨3, 1, 1, -1⟩, ⟨4, 1, 1, -1⟩, ⟨6, 1, 1, -1⟩, ⟨3, 1, 1, 97⟩, ⟨4, 1, 1, -1⟩, ⟨1, 1, 1, 163⟩,
  ⟨4, 1, 1, 130⟩, ⟨3, 3, 2, -1⟩, ⟨3, 1, 1, -1⟩, ⟨5, 1, 1, -1⟩, ⟨3, 1, 1, -1⟩, ⟨4, 2, 2, -1⟩,
  ⟨3, 1, 1, -1⟩, ⟨4, 1, 1, -1⟩, ⟨2, 1, 1, 56⟩, ⟨7, 1, 1, -2⟩, ⟨3, 1, 1, -2⟩, ⟨3, 1, 1, -2⟩,
  ⟨2, 8, 2, -1⟩, ⟨1, 1, 1, -79⟩, ⟨2, 9, 2, -1⟩, ⟨4, 1, 1, -2⟩, ⟨2, 1, 1, -1⟩, ⟨4, 20, 2, -1⟩,
  ⟨4, 9, 2, -1⟩, ⟨9, 1, 1, -1⟩, ⟨3, 2, 1, 10815⟩, ⟨2, 1, 1, -1⟩, ⟨5, 5, 2, -1⟩, ⟨1, 1, 1, 10783⟩,
  ⟨1, 1, 1, 10780⟩, ⟨1, 1, 1, 10782⟩, ⟨1, 1, 1, -210⟩, ⟨1, 1, 1, -206⟩, ⟨2, 2, 1, -205⟩,
  ⟨2, 1, 1, -202⟩, ⟨2, 1, 1, -203⟩, ⟨1, 1, 1, 42319⟩, ⟨4, 1, 1, -205⟩, ⟨1, 1, 1, 42315⟩,
  ⟨2, 1, 1, -207⟩, ⟨2, 1, 1, 42280⟩, ⟨1, 1, 1, 42308⟩, ⟨2, 1, 1, -209⟩, ⟨1, 1, 1, -211⟩,
  ⟨1, 1, 1, 42308⟩, ⟨1, 1, 1, 10743⟩, ⟨1, 1, 1, 42305⟩, ⟨3, 1, 1, -211⟩, ⟨2, 1, 1, 10749⟩,
  ⟨1, 1, 1, -213⟩, ⟨3, 1, 1, -214⟩, ⟨8, 1, 1, 10727⟩, ⟨3, 1, 1, -218⟩, ⟨2, 1, 1, 42307⟩,
  ⟨1, 1, 1, -218⟩, ⟨4, 1, 1, 42282⟩, ⟨1, 1, 1, -218⟩, ⟨1, 1, 1, -69⟩, ⟨1, 2, 1, -217⟩,
  ⟨1, 1, 1, -71⟩, ⟨6, 1, 1, -219⟩, ⟨11, 1, 1, 42261⟩, ⟨1, 1, 1, 42258⟩, ⟨211, 2, 2, -1⟩,
  ⟨4, 1, 1, -1⟩, ⟨4, 3, 1, 130⟩, ⟨47, 1, 1, -38⟩, ⟨1, 3, 1, -37⟩, ⟨2, 17, 1, -32⟩, ⟨2, 9, 1, -32⟩,
  ⟨1, 1, 1, -64⟩, ⟨1, 2, 1, -63⟩, ⟨9, 1, 1, -8⟩, ⟨2, 12, 2, -1⟩, ⟨3, 1, 1, 7⟩, ⟨1, 1, 1, -116⟩,
  ⟨5, 1, 1, -1⟩, ⟨3, 1, 1, -1⟩, ⟨53, 32, 1, -32⟩, ⟨1, 16, 1, -80⟩, ⟨2, 17, 2, -1⟩, ⟨10, 27, 2, -1⟩,
  ⟨3, 7, 2, -1⟩, ⟨1, 1, 1, -15⟩, ⟨2, 48, 2, -1⟩, ⟨50, 38, 1, -48⟩, ⟨2890, 43, 1, 3008⟩,
  ⟨3, 3, 1, 3008⟩, ⟨761, 6, 1, -8⟩, ⟨2428, 1, 1, 35332⟩, ⟨4, 1, 1, 3814⟩, ⟨17, 1, 1, 35384⟩,
  ⟨115, 75, 2, -1⟩, ⟨12, 48, 2, -1⟩, ⟨1, 8, 1, 8⟩, ⟨9, 6, 1, 8⟩, ⟨11, 8, 1, 8⟩, ⟨9, 8, 1, 8⟩,
  ⟨9, 6, 1, 8⟩, ⟨12, 4, 2, 8⟩, ⟨9, 8, 1, 8⟩, ⟨9, 2, 1, 74⟩, ⟨1, 4, 1, 86⟩, ⟨1, 2, 1, 100⟩,
  ⟨1, 2, 1, 128⟩, ⟨1, 2, 1, 112⟩, ⟨1, 2, 1, 126⟩, ⟨51, 2, 1, 8⟩, ⟨31, 2, 1, 8⟩, ⟨15, 2, 1, 8⟩,
  ⟨4, 1, 1, 7⟩, ⟨361, 1, 1, -28⟩, ⟨34, 16, 1, -16⟩, ⟨5, 1, 1, -1⟩, ⟨844, 26, 1, -26⟩,
  ⟨1863, 48, 1, -48⟩, ⟨2, 1, 1, -1⟩, ⟨4, 1, 1, -10795⟩, ⟨1, 1, 1, -10792⟩, ⟨2, 3, 2, -1⟩,
  ⟨7, 1, 1, -1⟩, ⟨3, 1, 1, -1⟩, ⟨11, 50, 2, -1⟩, ⟨9, 2, 2, -1⟩, ⟨5, 1, 1, -1⟩, ⟨13, 38, 1, -7264⟩,
  ⟨2, 1, 1, -7264⟩, ⟨6, 1, 1, -7264⟩, ⟨30996, 23, 2, -1⟩, ⟨20, 14, 2, -1⟩, ⟨136, 7, 2, -1⟩,
  ⟨4, 31, 2, -1⟩, ⟨11, 2, 2, -1⟩, ⟨3, 5, 2, -1⟩, ⟨5, 1, 1, -1⟩, ⟨5, 2, 2, -1⟩, ⟨1, 1, 1, 48⟩,
  ⟨3, 10, 2, -1⟩, ⟨12, 8, 2, -1⟩, ⟨5, 2, 2, -1⟩, ⟨7, 1, 1, -1⟩, ⟨6, 2, 2, -1⟩, ⟨29, 1, 1, -1⟩,
  ⟨861, 1, 1, -928⟩, ⟨29, 80, 1, -38864⟩, ⟨21378, 26, 1, -32⟩, ⟨1230, 40, 1, -40⟩,
  ⟨137, 36, 1, -40⟩, ⟨156, 11, 1, -39⟩, ⟨2, 15, 1, -39⟩, ⟨2, 7, 1, -39⟩, ⟨2, 2, 1, -39⟩,
  ⟨1796, 51, 1, -64⟩, ⟨3022, 32, 1, -32⟩, ⟨21889, 32, 1, -32⟩, ⟨31395, 34, 1, -34⟩]

/-- Letters with an iota, which is written after the capital. -/
def iotaRuns : List CaseRun := [
  ⟨8064, 8, 1, -120⟩, ⟨1, 8, 1, -128⟩, ⟨1, 8, 1, -104⟩, ⟨1, 8, 1, -112⟩, ⟨1, 8, 1, -56⟩,
  ⟨1, 8, 1, -64⟩]

/-- Other code points with an upper case form. -/
def upperForms : List (Nat × List Nat) := [
  (181, [924]), (223, [83, 83]), (305, [73]), (329, [700, 78]), (383, [83]), (453, [452]),
  (456, [455]), (459, [458]), (496, [74, 780]), (498, [497]), (837, [921]), (912, [921, 776, 769]),
  (944, [933, 776, 769]), (962, [931]), (976, [914]), (977, [920]), (981, [934]), (982, [928]),
  (1008, [922]), (1009, [929]), (1013, [917]), (1415, [1333, 1362]), (7296, [1042]), (7297, [1044]),
  (7298, [1054]), (7299, [1057]), (7300, [1058]), (7301, [1058]), (7302, [1066]), (7303, [1122]),
  (7304, [42570]), (7830, [72, 817]), (7831, [84, 776]), (7832, [87, 778]), (7833, [89, 778]),
  (7834, [65, 702]), (7835, [7776]), (8016, [933, 787]), (8018, [933, 787, 768]),
  (8020, [933, 787, 769]), (8022, [933, 787, 834]), (8114, [8122, 921]), (8115, [913, 921]),
  (8116, [902, 921]), (8118, [913, 834]), (8119, [913, 834, 921]), (8124, [913, 921]),
  (8126, [921]), (8130, [8138, 921]), (8131, [919, 921]), (8132, [905, 921]), (8134, [919, 834]),
  (8135, [919, 834, 921]), (8140, [919, 921]), (8146, [921, 776, 768]), (8147, [921, 776, 769]),
  (8150, [921, 834]), (8151, [921, 776, 834]), (8162, [933, 776, 768]), (8163, [933, 776, 769]),
  (8164, [929, 787]), (8166, [933, 834]), (8167, [933, 776, 834]), (8178, [8186, 921]),
  (8179, [937, 921]), (8180, [911, 921]), (8182, [937, 834]), (8183, [937, 834, 921]),
  (8188, [937, 921]), (64256, [70, 70]), (64257, [70, 73]), (64258, [70, 76]),
  (64259, [70, 70, 73]), (64260, [70, 70, 76]), (64261, [83, 84]), (64262, [83, 84]),
  (64275, [1348, 1350]), (64276, [1348, 1333]), (64277, [1348, 1339]), (64278, [1358, 1350]),
  (64279, [1348, 1341])]

/-- Capitals with an iota, from which the lower case form is reached. -/
def iotaCapitals : List CaseRun := [
  ⟨8072, 8, 1, -8⟩, ⟨9, 8, 1, -8⟩, ⟨9, 8, 1, -8⟩]

/-- Other code points with a lower case form. -/
def lowerForms : List (Nat × List Nat) := [
  (304, [105, 775]), (453, [454]), (456, [457]), (459, [460]), (498, [499]), (1012, [952]),
  (7838, [223]), (8124, [8115]), (8140, [8131]), (8188, [8179]), (8486, [969]), (8490, [107]),
  (8491, [229])]

/-- Letters with case, those that are also transparent to it left out. -/
def casedRuns : CodeRuns := [
  65, 26, 6, 26, 47, 1, 10, 1, 4, 1, 5, 23, 1, 31, 1, 195, 1, 4, 4, 208, 1, 27, 192, 4, 2, 2, 3, 3,
  1, 1, 6, 1, 1, 3, 1, 1, 1, 20, 1, 83, 1, 139, 8, 166, 1, 38, 9, 41, 2839, 38, 1, 1, 5, 1, 2, 43,
  2, 3, 672, 86, 2, 6, 2178, 9, 7, 43, 2, 3, 64, 44, 63, 13, 1, 34, 101, 278, 2, 6, 2, 38, 2, 6, 2,
  8, 1, 1, 1, 1, 1, 1, 1, 31, 2, 53, 1, 7, 1, 1, 3, 3, 1, 7, 3, 4, 2, 6, 4, 13, 5, 3, 1, 7, 261, 1,
  4, 1, 2, 10, 1, 1, 3, 5, 6, 1, 1, 1, 1, 1, 1, 4, 1, 6, 4, 1, 2, 4, 5, 5, 4, 1, 17, 32, 3, 2, 817,
  52, 1814, 124, 2, 103, 6, 4, 3, 2, 12, 38, 1, 1, 5, 1, 30994, 46, 18, 28, 134, 78, 1, 23, 3, 4, 1,
  59, 5, 2, 1, 1, 1, 5, 27, 2, 3, 1, 821, 43, 5, 9, 7, 80, 20288, 7, 12, 5, 1033, 26, 6, 26, 1189,
  80, 96, 36, 4, 36, 116, 11, 1, 15, 1, 7, 1, 2, 1, 11, 1, 15, 1, 7, 1, 2, 1731, 51, 13, 51, 2989,
  64, 21856, 64, 25984, 85, 1, 71, 1, 2, 2, 1, 2, 2, 2, 4, 1, 12, 1, 1, 1, 7, 1, 65, 1, 4, 2, 8, 1,
  7, 1, 28, 1, 4, 1, 5, 1, 1, 3, 7, 1, 340, 2, 25, 1, 25, 1, 31, 1, 25, 1, 31, 1, 25, 1, 31, 1, 25,
  1, 31, 1, 25, 1, 8, 1844, 10, 1, 20, 2529, 68, 2028, 26, 6, 26, 6, 26]

/-- Characters that are transparent to case: marks, apostrophes and the like. -/
def caseIgnorableRuns : CodeRuns := [
  39, 1, 6, 1, 11, 1, 35, 1, 1, 1, 71, 1, 4, 1, 1, 1, 4, 1, 2, 2, 503, 192, 4, 2, 4, 1, 9, 2, 1, 1,
  251, 7, 207, 1, 5, 1, 49, 45, 1, 1, 1, 2, 1, 2, 1, 1, 44, 1, 11, 6, 10, 11, 1, 1, 35, 1, 10, 21,
  16, 1, 101, 8, 1, 10, 1, 4, 33, 1, 1, 1, 30, 27, 91, 11, 58, 11, 4, 1, 2, 1, 24, 24, 43, 3, 44, 1,
  7, 2, 6, 8, 41, 58, 55, 1, 1, 1, 4, 8, 4, 1, 3, 7, 10, 2, 13, 1, 15, 1, 58, 1, 4, 4, 8, 1, 20, 2,
  26, 1, 2, 2, 57, 1, 4, 2, 4, 2, 2, 3, 3, 1, 30, 2, 3, 1, 11, 2, 57, 1, 4, 5, 1, 2, 4, 1, 20, 2,
  22, 6, 1, 1, 58, 1, 2, 1, 1, 4, 8, 1, 7, 2, 11, 2, 30, 1, 61, 1, 12, 1, 50, 1, 3, 1, 55, 1, 1, 3,
  5, 3, 1, 4, 7, 2, 11, 2, 29, 1, 58, 1, 2, 1, 6, 1, 5, 2, 20, 2, 28, 2, 57, 2, 4, 4, 8, 1, 20, 2,
  29, 1, 72, 1, 7, 3, 1, 1, 90, 1, 2, 7, 11, 9, 98, 1, 2, 9, 9, 1, 1, 6, 74, 2, 27, 1, 1, 1, 1, 1,
  55, 14, 1, 5, 1, 2, 5, 11, 1, 36, 9, 1, 102, 4, 1, 6, 1, 2, 2, 2, 25, 2, 4, 3, 16, 4, 13, 1, 2, 2,
  6, 1, 15, 1, 94, 1, 608, 3, 946, 3, 29, 2, 30, 2, 30, 2, 64, 2, 1, 7, 8, 1, 2, 11, 3, 1, 5, 1, 45,
  5, 51, 1, 65, 2, 34, 1, 118, 3, 4, 2, 9, 1, 6, 3, 219, 2, 2, 1, 58, 1, 1, 7, 1, 1, 1, 1, 2, 8, 6,
  10, 2, 1, 39, 1, 8, 31, 49, 4, 48, 1, 1, 5, 1, 1, 5, 1, 40, 9, 12, 2, 32, 4, 2, 2, 1, 3, 56, 1, 1,
  2, 3, 1, 1, 3, 58, 8, 2, 2, 64, 6, 82, 3, 1, 13, 1, 7, 4, 1, 6, 1, 3, 2, 50, 63, 13, 1, 34, 101,
  445, 1, 1, 3, 11, 3, 13, 3, 13, 3, 13, 2, 12, 5, 8, 2, 10, 1, 2, 1, 2, 5, 49, 5, 1, 10, 1, 1, 13,
  1, 16, 13, 51, 33, 2955, 2, 113, 3, 125, 1, 15, 1, 96, 32, 47, 1, 469, 1, 36, 4, 3, 5, 5, 1, 93,
  6, 93, 3, 28438, 1, 1250, 6, 270, 1, 98, 4, 1, 10, 1, 1, 28, 4, 80, 2, 14, 34, 78, 1, 23, 3, 103,
  3, 3, 2, 8, 1, 3, 1, 4, 1, 25, 2, 5, 1, 151, 2, 26, 18, 13, 1, 38, 8, 25, 11, 46, 3, 48, 1, 2, 4,
  2, 2, 17, 1, 21, 2, 66, 6, 2, 2, 2, 2, 12, 1, 8, 1, 35, 1, 11, 1, 51, 1, 1, 3, 2, 2, 5, 2, 1, 1,
  27, 1, 14, 2, 5, 2, 1, 1, 100, 5, 9, 3, 121, 1, 2, 1, 4, 1, 20272, 1, 147, 17, 573, 16, 3, 1, 12,
  16, 34, 1, 2, 1, 169, 1, 7, 1, 6, 1, 11, 1, 35, 1, 1, 1, 47, 1, 45, 2, 67, 1, 21, 3, 513, 1, 226,
  1, 149, 5, 1029, 6, 1, 42, 1, 9, 582, 3, 1, 2, 5, 4, 40, 3, 4, 1, 165, 2, 573, 4, 387, 2, 153, 11,
  49, 4, 123, 1, 54, 15, 41, 1, 2, 2, 10, 3, 49, 4, 2, 2, 2, 1, 4, 1, 10, 1, 50, 3, 36, 5, 1, 8, 62,
  1, 12, 2, 52, 9, 10, 4, 2, 1, 95, 3, 2, 1, 1, 2, 6, 1, 160, 1, 3, 8, 21, 2, 57, 2, 3, 1, 37, 7, 3,
  5, 195, 8, 2, 3, 1, 1, 23, 1, 84, 6, 1, 1, 4, 2, 1, 2, 238, 4, 6, 2, 1, 2, 27, 2, 85, 8, 2, 1, 1,
  2, 106, 1, 1, 1, 2, 6, 1, 1, 101, 3, 2, 4, 1, 5, 259, 9, 1, 2, 256, 2, 1, 1, 4, 1, 144, 4, 2, 2,
  4, 1, 32, 10, 40, 6, 2, 4, 8, 1, 9, 6, 2, 3, 46, 13, 1, 2, 406, 7, 1, 6, 1, 1, 82, 22, 2, 7, 1, 2,
  1, 2, 122, 6, 3, 1, 1, 2, 1, 7, 1, 1, 72, 2, 3, 1, 1, 1, 347, 2, 5435, 9, 14007, 5, 59, 7, 9, 4,
  1035, 1, 63, 17, 64, 2, 1, 2, 16395, 4, 1, 7, 1, 2, 3230, 2, 1, 4, 4700, 46, 2, 23, 544, 3, 9, 16,
  2, 7, 30, 4, 148, 3, 1979, 55, 4, 50, 8, 1, 14, 1, 22, 5, 1, 15, 1360, 7, 1, 17, 2, 7, 1, 2, 1, 5,
  261, 14, 368, 1, 61, 4, 1504, 7, 109, 8, 2735, 5, 789505, 1, 30, 96, 128, 240]

end CirOutline.Text
