import TexTidy.Bytes
import TexTidy.Cli
import TexTidy.Cli.Flag
import TexTidy.Cli.Log
import TexTidy.Config
import TexTidy.Config.Toml
import TexTidy.Format
import TexTidy.Layout.Doc
import TexTidy.Layout.Fits
import TexTidy.Layout.Render
import TexTidy.Main
import TexTidy.Mode
import TexTidy.Node
import TexTidy.Node.Order
import TexTidy.Node.Raw
import TexTidy.Parse
import TexTidy.Path
import TexTidy.Print
import TexTidy.Print.Paragraph
import TexTidy.Print.Warning
import TexTidy.Registry
import TexTidy.Registry.Builtin
import TexTidy.Registry.File
import TexTidy.Registry.Hints
import TexTidy.Registry.Yaml
import TexTidy.Signature
import TexTidy.Source.Cursor
import TexTidy.Source.Fault
import TexTidy.Source.Token
import TexTidy.Surroundings
import TexTidy.Table.Align
import TexTidy.Table.Column
import TexTidy.Table.Row
import TexTidy.Text.Cluster
import TexTidy.Text.Cluster.Class
import TexTidy.Text.Csv
import TexTidy.Text.Expand
import TexTidy.Text.Integer
import TexTidy.Text.LineEnd
import TexTidy.Text.Printable
import TexTidy.Text.Quoted
import TexTidy.Text.Ranges
import TexTidy.Text.Space
import TexTidy.Text.Utf8
import TexTidy.Text.Width
import TexTidy.Toml
import TexTidy.Yaml
import TexTidy.Yaml.Scalar
import TexTidy.Proofs.Reading
import TexTidy.Proofs.Derivation
import TexTidy.Proofs.RoundTrip
import TexTidy.Proofs.Tiling
import TexTidy.Proofs.Ink
import TexTidy.Proofs.Choice
import TexTidy.Proofs.Sound
import TexTidy.Proofs.TableInk
import TexTidy.Proofs.Lossless
import TexTidy.Proofs.Writing
import TexTidy.Proofs.Fence
import TexTidy.Proofs.Mark
import TexTidy.Proofs.Guard
import TexTidy.Proofs.TableComment
import TexTidy.Proofs.CommentLine
import TexTidy.Proofs.Tight
import TexTidy.Proofs.Follow
import TexTidy.Proofs.Spelling
import TexTidy.Proofs.Hazard
import TexTidy.Proofs.Respell
import TexTidy.Proofs.Complete
import TexTidy.Proofs.Reread
import TexTidy.Proofs.Lexeme
import TexTidy.Proofs.Reflow
import TexTidy.Proofs.Flowing
import TexTidy.Proofs.Shapes
import TexTidy.Proofs.Split
import TexTidy.Proofs.TableSpelling
import TexTidy.Proofs.TableLines
import TexTidy.Proofs.Faithful
import TexTidy.Proofs.Structure
import TexTidy.Proofs.Acceptance
import TexTidy.Proofs.Definitions
import TexTidy.Proofs.ReadingModes
import TexTidy.Proofs.Agreement
import TexTidy.Proofs.Columns
import TexTidy.Proofs.Wrapping
import TexTidy.Proofs.Filling
import TexTidy.Proofs.Width
import TexTidy.Proofs.Termination
import TexTidy.Proofs.DoubleDollar
import TexTidy.Proofs.CheckWrite
import TexTidy.Proofs.Layers
import TexTidy.Proofs.Partition
import TexTidy.Proofs.Alignment
import TexTidy.Proofs.Signatures
import TexTidy.Proofs.NormalForm
import TexTidy.Proofs.GroupFit
import TexTidy.Proofs.Greedy
import TexTidy.Proofs.WordFill
import TexTidy.Proofs.Prose
import TexTidy.Proofs.TableRows
import TexTidy.Proofs.LineEnds
import TexTidy.Proofs.Lexing
import TexTidy.Proofs.VerbatimEnd
import TexTidy.Proofs.Expansion
import TexTidy.Proofs.SignatureGrammar
import TexTidy.Proofs.Lockstep
import TexTidy.Proofs.ErrorPlace
import TexTidy.Proofs.UnusedEntries
import TexTidy.Proofs.Siblings
import TexTidy.Proofs.FirstLine
import TexTidy.Proofs.FillRuns
import TexTidy.Proofs.Trimming
import TexTidy.Proofs.RawPieces
