import JsonQuery.Query.Search

/-!
# Envelopes

An **event** wraps what it is about in layers of its own: records, messages, documents as
strings, bytes in base 64. Which layers depends on the services that the event came
through, and for each of the common ways there is an **envelope**, a query that unwraps the
payload. Envelopes have names; any other query serves as an envelope just as well.

Queries that unwrap need functions that open payloads, so they are evaluated with
`JsonQuery.Registry.withPayload` unless the caller brings a table.
-/

namespace JsonQuery

/-- The common ways for an event to come. -/
inductive Envelope where
  /-- A request to an interface over the web. -/
  | apiGatewayRest
  /-- A request to an interface over the web, in its plain form. -/
  | apiGatewayHttp
  /-- Messages from a queue. -/
  | sqs
  /-- A notification. -/
  | sns
  /-- An event from a bus. -/
  | eventBridge
  /-- An event from a schedule. -/
  | scheduled
  /-- Records from a stream. -/
  | kinesis
  /-- Lines of a log. -/
  | logs
  /-- A change to a store of objects, notified to a queue. -/
  | s3SnsSqs
  /-- A change to a store of objects, through a queue. -/
  | s3Sqs
  /-- A change to a store of objects, notified to a delivery stream. -/
  | s3SnsFirehose
  /-- A change to a store of objects, through a delivery stream. -/
  | s3Firehose
  /-- A change to a store of objects, through a bus and a queue. -/
  | s3EventBridgeSqs
  deriving DecidableEq, Repr

namespace Envelope

/-- All envelopes. -/
def all : List Envelope :=
  [apiGatewayRest, apiGatewayHttp, sqs, sns, eventBridge, scheduled, kinesis, logs, s3SnsSqs, s3Sqs,
    s3SnsFirehose, s3Firehose, s3EventBridgeSqs]

/-- The name of an envelope. -/
def name : Envelope → String
  | apiGatewayRest => "API_GATEWAY_REST"
  | apiGatewayHttp => "API_GATEWAY_HTTP"
  | sqs => "SQS"
  | sns => "SNS"
  | eventBridge => "EVENTBRIDGE"
  | scheduled => "CLOUDWATCH_EVENTS_SCHEDULED"
  | kinesis => "KINESIS_DATA_STREAM"
  | logs => "CLOUDWATCH_LOGS"
  | s3SnsSqs => "S3_SNS_SQS"
  | s3Sqs => "S3_SQS"
  | s3SnsFirehose => "S3_SNS_KINESIS_FIREHOSE"
  | s3Firehose => "S3_KINESIS_FIREHOSE"
  | s3EventBridgeSqs => "S3_EVENTBRIDGE_SQS"

/-- The query that unwraps the payload. -/
def query : Envelope → String
  | apiGatewayRest => "powertools_json(body)"
  | apiGatewayHttp => "powertools_json(body)"
  | sqs => "Records[*].powertools_json(body)"
  | sns => "Records[0].Sns.Message | powertools_json(@)"
  | eventBridge => "detail"
  | scheduled => "detail"
  | kinesis => "Records[*].kinesis.powertools_json(powertools_base64(data))"
  | logs => "awslogs.powertools_base64_gzip(data) | powertools_json(@).logEvents[*]"
  | s3SnsSqs => "Records[*].powertools_json(body).powertools_json(Message).Records[0]"
  | s3Sqs => "Records[*].powertools_json(body).Records[0]"
  | s3SnsFirehose =>
    "records[*].powertools_json(powertools_base64(data)).powertools_json(Message).Records[0]"
  | s3Firehose => "records[*].powertools_json(powertools_base64(data)).Records[0]"
  | s3EventBridgeSqs => "Records[*].powertools_json(body).detail"

/-- The envelope of a name. -/
def ofName? (name : String) : Option Envelope :=
  all.find? fun e => e.name == name

/-- The query that a name stands for; a text that is no name stands for itself. -/
def queryOf (nameOrQuery : String) : String :=
  match ofName? nameOrQuery with
  | some e => e.query
  | none => nameOrQuery

/-- What a query takes out of an event, with a table of functions if one is given. -/
def extract (table? : Option Registry) (query : String) (event : Json) : Except Error Json :=
  Query.run (table?.getD .withPayload) query event

end Envelope

end JsonQuery
