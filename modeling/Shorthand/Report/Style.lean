/-!
Coloured text for terminals. A style puts a code in front of a text and the reset code behind it;
`withoutCodes` takes all codes out again.
-/

namespace Shorthand

inductive Style where
  | bold
  | dimmed
  | red
  | green
  | yellow
  | blue
  | magenta
  | cyan
  | boldYellow
  | boldCyan
deriving DecidableEq, Repr

namespace Style

def codes : Style → String
  | .bold => "1"
  | .dimmed => "2"
  | .red => "31"
  | .green => "32"
  | .yellow => "33"
  | .blue => "34"
  | .magenta => "35"
  | .cyan => "36"
  | .boldYellow => "1;33"
  | .boldCyan => "1;36"

def opening (s : Style) : List Char := '\x1b' :: '[' :: (s.codes.toList ++ ['m'])

def reset : List Char := ['\x1b', '[', '0', 'm']

/-- The text with a style turned on again behind each reset code that stands in it. -/
def resumed (s : Style) : List Char → List Char
  | '\x1b' :: '[' :: '0' :: 'm' :: rest => reset ++ s.opening ++ resumed s rest
  | c :: rest => c :: resumed s rest
  | [] => []

/-- The text in a style, or as it is when the output has no colours. -/
def paint (coloured : Bool) (s : Style) (text : String) : String :=
  if coloured then String.ofList (s.opening ++ resumed s text.toList ++ reset) else text

/-- What follows a code whose numbers start the text, if they end it properly. -/
def afterCode? : List Char → Option (List Char)
  | 'm' :: rest => some rest
  | c :: rest => if c.isDigit || c == ';' then afterCode? rest else none
  | [] => none

theorem length_afterCode? {cs rest : List Char} (h : afterCode? cs = some rest) :
    rest.length < cs.length := by
  induction cs with
  | nil => simp [afterCode?] at h
  | cons c cs ih =>
    by_cases hm : c = 'm'
    · subst hm
      simp only [afterCode?, Option.some.injEq] at h
      subst h
      simp
    · have hstep : afterCode? (c :: cs) =
          if c.isDigit || c == ';' then afterCode? cs else none := by
        rw [afterCode?]
        exact fun e => hm e
      rw [hstep] at h
      split at h
      · have := ih h
        simp only [List.length_cons]
        omega
      · cases h

def withoutCodes : List Char → List Char
  | '\x1b' :: '[' :: after =>
    match _h : afterCode? after with
    | some behind => withoutCodes behind
    | none => '\x1b' :: withoutCodes ('[' :: after)
  | c :: rest => c :: withoutCodes rest
  | [] => []
termination_by cs => cs.length
decreasing_by
  · have := length_afterCode? _h
    simp only [List.length_cons]
    omega
  · simp
  · simp

end Style

end Shorthand
