import TexTidy.Registry

/-!
# TexTidy.Registry.Builtin

The commands and environments that are known without any configuration.
-/

namespace TexTidy.Registry

/-- Gives several names one specification. -/
def shared {σ : Type} (spec : σ) (names : List String) : List (Bytes × σ) :=
  names.map fun name => (bytes name, spec)

/-- Commands of document structure. -/
def structureCommands : List (Bytes × CommandSpec) :=
  shared { signature := bytes "o m" }
    ["documentclass", "usepackage", "RequirePackage", "author", "title", "date"] ++
  shared { signature := bytes "s o m", hangingIndent := true, breakBefore := true, breakAfter := true }
    ["part", "chapter", "section", "subsection", "subsubsection", "paragraph", "subparagraph"] ++
  shared { signature := bytes "s m o o m" } ["newcommand", "renewcommand", "providecommand"] ++
  shared { signature := bytes "m o o m m" } ["newenvironment", "renewenvironment"] ++
  shared { signature := bytes "o m", hangingIndent := true } ["caption"] ++
  shared { signature := bytes "o", hangingIndent := true, breakBefore := true } ["item"] ++
  shared { signature := bytes "o m", breakBefore := true } ["bibitem"] ++
  shared { signature := bytes "m" }
    ["label", "ref", "eqref", "pageref", "input", "include", "url", "cline"] ++
  shared { signature := bytes "o m" } ["cite", "includegraphics"] ++
  shared { signature := bytes "m m" } ["href", "setlength"] ++
  shared { signature := bytes "s m" } ["vspace", "hspace"] ++
  shared { signature := bytes "s o", breakAfter := true } ["\\"] ++
  shared ({} : CommandSpec)
    ["hline", "toprule", "midrule", "bottomrule", "maketitle", "centering", "noindent", "par"]

/-- Commands whose argument is text, most of which flow with the paragraph. -/
def textCommands : List (Bytes × CommandSpec) :=
  shared { signature := bytes "m", inParagraph := true }
    ["textbf", "textit", "texttt", "textsf", "textsc", "textsl", "textup", "textmd", "emph",
      "underline"] ++
  shared { signature := bytes "o m", inParagraph := true } ["footnote"] ++
  shared { signature := bytes "m", mode := bytes "text" } ["text", "mbox", "textrm", "intertext"] ++
  shared { signature := bytes "m", mode := bytes "math" } ["ensuremath"]

/-- Commands of formulas. -/
def mathCommands : List (Bytes × CommandSpec) :=
  shared { signature := bytes "m m" } ["frac", "dfrac", "tfrac", "binom"] ++
  shared { signature := bytes "o m" } ["sqrt"] ++
  shared { signature := bytes "m" }
    ["mathbf", "mathrm", "mathit", "mathcal", "mathbb", "mathsf", "mathtt", "mathfrak",
      "operatorname", "overline", "underbrace", "overbrace", "hat", "bar", "vec", "tilde", "widehat",
      "dot"]

/-- Commands with verbatim text between delimiters. -/
def verbCommands : List (Bytes × CommandSpec) :=
  shared { verb := true } ["verb", "lstinline"]

/-- The known environments. -/
def builtinEnvironments : List (Bytes × EnvironmentSpec) :=
  shared { verbatim := true } ["verbatim", "verbatim*", "Verbatim", "comment"] ++
  shared { signature := bytes "o", verbatim := true } ["lstlisting"] ++
  shared { signature := bytes "o m", verbatim := true } ["minted"] ++
  shared { math := true }
    ["equation", "equation*", "gather", "gather*", "multline", "multline*", "displaymath", "math"] ++
  shared { math := true, align := true }
    ["align", "align*", "alignat", "alignat*", "flalign", "flalign*", "eqnarray", "eqnarray*"] ++
  shared { align := true }
    ["aligned", "split", "cases", "matrix", "pmatrix", "bmatrix", "vmatrix", "Vmatrix"] ++
  shared { signature := bytes "o m", align := true } ["tabular", "array", "longtable"] ++
  shared { signature := bytes "m o m", align := true } ["tabular*", "tabularx"] ++
  shared { signature := bytes "o" }
    ["figure", "figure*", "table", "table*", "itemize", "enumerate", "description"] ++
  shared { signature := bytes "o m m" } ["wrapfigure"] ++
  shared { signature := bytes "m" } ["minipage", "thebibliography"]

/-- The known commands. -/
def builtinCommands : List (Bytes × CommandSpec) :=
  structureCommands ++ textCommands ++ mathCommands ++ verbCommands

/-- The registry used when nothing else is said. No definition in it is refused. -/
def builtin : Registry :=
  match empty.defineAll builtinCommands builtinEnvironments with
  | .ok r => r
  | .error _ => empty

end TexTidy.Registry
