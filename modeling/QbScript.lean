import QbScript.Main
import QbScript.FileTree
import QbScript.Proofs.Bytecode.Encoding
import QbScript.Proofs.Bytecode.Machine
import QbScript.Proofs.Script.Content
import QbScript.Proofs.Script.Conditionals
import QbScript.Proofs.Script.Switches
import QbScript.Proofs.Script.Acceptance
import QbScript.Proofs.Listing.Independence
import QbScript.Proofs.Listing.RoundTrip
import QbScript.Proofs.Listing.Delimited
import QbScript.Proofs.Script.NameSet
import QbScript.Proofs.Listing.Markers
import QbScript.Proofs.Listing.Names
import QbScript.Proofs.Listing.Pieces
import QbScript.Proofs.NameTable
import QbScript.Proofs.Script.LineEnds
import QbScript.Proofs.Script.Backpatching
import QbScript.Proofs.Listing.Validity
import QbScript.Proofs.Source.Tiling
import QbScript.Proofs.Script.LineNumbers
import QbScript.Proofs.Source.Squeeze
import QbScript.Proofs.Source.LetterCase
import QbScript.Proofs.Scanner.Recovery
import QbScript.Proofs.Checksum
import QbScript.Proofs.Listing.Escapes
import QbScript.Proofs.Listing.Trees
import QbScript.Proofs.Listing.Unresolved
import QbScript.Proofs.Listing.Followed
import QbScript.Proofs.Listing.Indentation
import QbScript.Proofs.Bytecode.InPlace
import QbScript.Proofs.Listing.Integers
import QbScript.Proofs.CommandLine.OutputPath
import QbScript.Proofs.CommandLine.Run
