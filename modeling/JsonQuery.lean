import JsonQuery.Envelope
import JsonQuery.Json.Equality
import JsonQuery.Json.Walk
import JsonQuery.Main
import JsonQuery.Proofs.Addressing
import JsonQuery.Proofs.BracketComposition
import JsonQuery.Proofs.CacheTransparency
import JsonQuery.Proofs.Callees
import JsonQuery.Proofs.CanonicalShape
import JsonQuery.Proofs.Extrema
import JsonQuery.Proofs.FaultOrigins
import JsonQuery.Proofs.Finality
import JsonQuery.Proofs.Height
import JsonQuery.Proofs.IntegerOrder
import JsonQuery.Proofs.KeyOrder
import JsonQuery.Proofs.Leaves
import JsonQuery.Proofs.Literals
import JsonQuery.Proofs.Mapping
import JsonQuery.Proofs.Merging
import JsonQuery.Proofs.NumericFunctions
import JsonQuery.Proofs.OperatorPrecedence
import JsonQuery.Proofs.PipeComposition
import JsonQuery.Proofs.ProjectionComposition
import JsonQuery.Proofs.ProjectionScope
import JsonQuery.Proofs.RawStrings
import JsonQuery.Proofs.Respacing
import JsonQuery.Proofs.SignatureGuards
import JsonQuery.Proofs.Slicing
import JsonQuery.Proofs.StableSorting
import JsonQuery.Proofs.TableAgreement
import JsonQuery.Proofs.TapeAgreement
import JsonQuery.Proofs.Totality
import JsonQuery.Proofs.TypeChecking
import JsonQuery.Session
import JsonQuery.Proofs.Negation
import JsonQuery.Proofs.Depiction
import JsonQuery.Proofs.RecordEnvelopes
import JsonQuery.Proofs.Decoding
import JsonQuery.Proofs.ValueReading
import JsonQuery.Proofs.Separators
